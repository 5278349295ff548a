import Iota.Consensus.DagStateRecovery
import Iota.Lib.Ascending

/-! What `DagState` keeps true while the node runs (`dag_state.rs`, `linearizer.rs`).
Both the store and the store as it will be once the buffers are flushed are stores
the node can have written (`StoreInv`); the last commit and the committed rounds are
those of the flushed store; the cache holds flushed blocks under their own
references; a reference names one block; and with the V2 linearizer and GC, a cached
block above the GC round is marked committed exactly when a commit holds it, and
every committed block above the GC round is cached.  Without GC nothing is marked.

Accepting a block, committing a leader's sub-dag, buffering a commit info and
flushing each keep it, the commit under what the committer and the linearizer's walk
give `handle_commit` (`SubDagGiven`). -/

namespace Iota.Consensus

open Iota.Lib

theorem round_le_maxRoundOf {refs : List BlockRef} {r : BlockRef} (h : r ∈ refs) :
    r.round ≤ maxRoundOf refs r.author := by
  induction refs with
  | nil => simp at h
  | cons r' refs ih =>
    rw [maxRoundOf_cons]
    rcases List.mem_cons.mp h with rfl | h
    · simp
    · have := ih h
      split <;> omega

@[simp] theorem committedRefs_singleton (c : TrustedCommit) : committedRefs [c] = c.blocks := by
  simp [committedRefs]

/-! ### Stores written by appending -/

namespace StoreInv

variable {n : ℕ} {store store' : ConsensusStore}

theorem of_blocks_append {bs : List VerifiedBlock} (h : StoreInv n store) (hblocks : store'.blocks = store.blocks ++ bs)
    (hcommits : store'.commits = store.commits) (hinfo : store'.commitInfo = store.commitInfo)
    (hbs : ∀ b ∈ bs, b.author < n) : StoreInv n store' where
  indices := hcommits ▸ h.indices
  leader_mem := hcommits ▸ h.leader_mem
  round_le_leader := hcommits ▸ h.round_le_leader
  leaders_increase := hcommits ▸ h.leaders_increase
  refs_nodup := hcommits ▸ h.refs_nodup
  authors := hcommits ▸ h.authors
  commit_blocks r hr := by
    obtain ⟨b, hb, rfl⟩ := h.commit_blocks r (hcommits ▸ hr)
    exact ⟨b, hblocks ▸ List.mem_append_left bs hb, rfl⟩
  block_authors b hb := by
    rw [hblocks] at hb
    rcases List.mem_append.mp hb with hb | hb
    · exact h.block_authors b hb
    · exact hbs b hb
  info := hcommits ▸ hinfo ▸ h.info

theorem of_commit_append {c : TrustedCommit} (h : StoreInv n store) (hblocks : store'.blocks = store.blocks)
    (hcommits : store'.commits = store.commits ++ [c]) (hinfo : store'.commitInfo = store.commitInfo)
    (hindex : c.index = store.commits.length + 1) (hleader : c.leader ∈ c.blocks)
    (hround : ∀ r ∈ c.blocks, r.round ≤ c.leader.round)
    (habove : ∀ c' ∈ store.commits, c'.leader.round < c.leader.round) (hnodup : c.blocks.Nodup)
    (hfresh : ∀ r ∈ c.blocks, r ∉ committedRefs store.commits) (hauthors : ∀ r ∈ c.blocks, r.author < n)
    (hstored : ∀ r ∈ c.blocks, ∃ b ∈ store.blocks, b.reference = r) : StoreInv n store' where
  indices := by
    rw [hcommits]
    exact h.indices.append_singleton (by rw [hindex]; omega)
  leader_mem c' hc' := by
    rw [hcommits, List.mem_append, List.mem_singleton] at hc'
    rcases hc' with hc' | rfl
    · exact h.leader_mem c' hc'
    · exact hleader
  round_le_leader c' hc' := by
    rw [hcommits, List.mem_append, List.mem_singleton] at hc'
    rcases hc' with hc' | rfl
    · exact h.round_le_leader c' hc'
    · exact hround
  leaders_increase := by
    rw [hcommits, List.pairwise_append]
    refine ⟨h.leaders_increase, List.pairwise_singleton _ _, fun c' hc' c'' hc'' => ?_⟩
    rw [List.mem_singleton.mp hc'']
    exact habove c' hc'
  refs_nodup := by
    rw [hcommits, committedRefs_append, committedRefs_singleton, List.nodup_append]
    exact ⟨h.refs_nodup, hnodup, fun r hr r' hr' hrr' => hfresh r' hr' (hrr' ▸ hr)⟩
  authors r hr := by
    rw [hcommits, committedRefs_append, committedRefs_singleton, List.mem_append] at hr
    rcases hr with hr | hr
    · exact h.authors r hr
    · exact hauthors r hr
  commit_blocks r hr := by
    rw [hcommits, committedRefs_append, committedRefs_singleton, List.mem_append] at hr
    rw [hblocks]
    rcases hr with hr | hr
    · exact h.commit_blocks r hr
    · exact hstored r hr
  block_authors := hblocks ▸ h.block_authors
  info p hp := by
    obtain ⟨hle, hrounds⟩ := h.info p (hinfo ▸ hp)
    rw [hcommits, List.length_append, List.take_append_of_le_length hle]
    exact ⟨by omega, hrounds⟩

theorem of_info_append {p : CommitRef × CommitInfo} (h : StoreInv n store) (hblocks : store'.blocks = store.blocks)
    (hcommits : store'.commits = store.commits) (hinfo : store'.commitInfo = store.commitInfo ++ [p])
    (hp : p.1.index ≤ store.commits.length ∧
      p.2.committedRounds = maxRoundOf (committedRefs (store.commits.take p.1.index))) : StoreInv n store' where
  indices := hcommits ▸ h.indices
  leader_mem := hcommits ▸ h.leader_mem
  round_le_leader := hcommits ▸ h.round_le_leader
  leaders_increase := hcommits ▸ h.leaders_increase
  refs_nodup := hcommits ▸ h.refs_nodup
  authors := hcommits ▸ h.authors
  commit_blocks := hcommits ▸ hblocks ▸ h.commit_blocks
  block_authors := hblocks ▸ h.block_authors
  info p' hp' := by
    rw [hinfo, List.mem_append, List.mem_singleton] at hp'
    rw [hcommits]
    rcases hp' with hp' | rfl
    · exact h.info p' hp'
    · exact hp

theorem leader_round_le_last (h : StoreInv n store) {last : TrustedCommit} (hlast : store.readLastCommit = some last) :
    ∀ c ∈ store.commits, c.leader.round ≤ last.leader.round := by
  intro c hc
  obtain ⟨init, hinit⟩ : ∃ init, store.commits = init ++ [last] := by
    refine ⟨store.commits.dropLast, ?_⟩
    rw [List.dropLast_append_getLast? last hlast]
  have hpair := h.leaders_increase
  rw [hinit, List.pairwise_append] at hpair
  rw [hinit, List.mem_append, List.mem_singleton] at hc
  rcases hc with hc | rfl
  · exact (hpair.2.2 c hc last (List.mem_singleton_self last)).le
  · exact le_rfl

end StoreInv

@[simp] theorem ConsensusStore.write_nil (store : ConsensusStore) : store.write [] [] [] = store := by
  rcases store with ⟨⟨blocks⟩, commits, commitInfo⟩
  simp [ConsensusStore.write]

/-! ### Reading committed sub-dags back -/

namespace ConsensusStore

variable {store store' : ConsensusStore}

theorem readBlock_of_mem (hu : ∀ b ∈ store.blocks, ∀ b' ∈ store.blocks, b.reference = b'.reference → b = b')
    {b : VerifiedBlock} (hb : b ∈ store.blocks) : store.readBlock b.reference = some b := by
  obtain ⟨b', hb'⟩ := Option.isSome_iff_exists.mp (readBlock_isSome ⟨b, hb, rfl⟩)
  rw [hb', hu b' (mem_of_readBlock hb') b hb (readBlock_reference hb')]

theorem filterMap_readBlock_map_reference {l : List VerifiedBlock} (h : ∀ b ∈ l, store.readBlock b.reference = some b) :
    (l.map (·.reference)).filterMap store.readBlock = l := by
  induction l with
  | nil => rfl
  | cons b l ih =>
    rw [List.map_cons, List.filterMap_cons, h b List.mem_cons_self, ih fun b' hb' => h b' (List.mem_cons_of_mem b hb')]

theorem readBlock_of_blocks_append {more : List VerifiedBlock} (hb : store'.blocks = store.blocks ++ more)
    {r : BlockRef} (hr : ∃ b ∈ store.blocks, b.reference = r) : store'.readBlock r = store.readBlock r := by
  obtain ⟨b, hb'⟩ := Option.isSome_iff_exists.mp (readBlock_isSome hr)
  rw [hb']
  show store'.blocks.find? _ = some b
  rw [hb, List.find?_append]
  exact congrArg (Option.or · _) hb'

end ConsensusStore

/-- The sub-dag is the one `load_committed_subdag_from_store` reads back for the commit,
but for the reputation scores. -/
def LoadsAs (store : ConsensusStore) (commit : TrustedCommit) (subDag : CommittedSubDag) : Prop :=
  subDag.leader = commit.leader ∧ subDag.blocks = commit.blocks.filterMap store.readBlock ∧
    subDag.timestampMs = commit.timestampMs ∧ subDag.commitRef = commit.reference

theorem LoadsAs.of_blocks_append {store store' : ConsensusStore} {more : List VerifiedBlock} {commit : TrustedCommit}
    {subDag : CommittedSubDag} (h : LoadsAs store commit subDag) (hb : store'.blocks = store.blocks ++ more)
    (hstored : ∀ r ∈ commit.blocks, ∃ b ∈ store.blocks, b.reference = r) : LoadsAs store' commit subDag := by
  refine ⟨h.1, ?_, h.2.2⟩
  rw [h.2.1]
  exact List.filterMap_congr fun r hr => (ConsensusStore.readBlock_of_blocks_append hb (hstored r hr)).symm

theorem LoadsAs.of_blocks_eq {store store' : ConsensusStore} {commit : TrustedCommit} {subDag : CommittedSubDag}
    (h : LoadsAs store commit subDag) (hb : store'.blocks = store.blocks) : LoadsAs store' commit subDag := by
  refine ⟨h.1, ?_, h.2.2⟩
  rw [h.2.1]
  show _ = commit.blocks.filterMap fun r => store'.blocks.find? _
  rw [hb]
  rfl

namespace DagCommitState

/-- The store once the buffers are written. -/
def flushedStore (s : DagCommitState) : ConsensusStore :=
  s.store.write s.blocksToWrite s.commitsToWrite s.commitInfoToWrite

@[simp] theorem flushedStore_blocks (s : DagCommitState) :
    s.flushedStore.blocks = s.store.blocks ++ s.blocksToWrite := rfl

@[simp] theorem flushedStore_commits (s : DagCommitState) :
    s.flushedStore.commits = s.store.commits ++ s.commitsToWrite := rfl

@[simp] theorem flushedStore_commitInfo (s : DagCommitState) :
    s.flushedStore.commitInfo = s.store.commitInfo ++ s.commitInfoToWrite := rfl

/-- What `DagState` keeps true between its operations. -/
structure DagInv (s : DagCommitState) : Prop where
  stored : StoreInv s.context.numAuthorities s.store
  flushed : StoreInv s.context.numAuthorities s.flushedStore
  lastCommit_eq : s.lastCommit = s.flushedStore.readLastCommit
  rounds_eq : s.lastCommittedRounds = maxRoundOf (committedRefs s.flushedStore.commits)
  cached : ∀ r info, s.recentBlocks.lookup r = some info → info.block.reference = r ∧ info.block ∈ s.flushedStore.blocks
  refs_unique : ∀ b ∈ s.flushedStore.blocks, ∀ b' ∈ s.flushedStore.blocks, b.reference = b'.reference → b = b'
  flags : s.context.linearizeSubdagV2 = true → s.gcEnabled = true → ∀ r info, s.recentBlocks.lookup r = some info →
    s.gcRound < r.round → (info.committed = true ↔ r ∈ committedRefs s.flushedStore.commits)
  committed_cached : s.context.linearizeSubdagV2 = true → s.gcEnabled = true →
    ∀ r ∈ committedRefs s.flushedStore.commits, s.gcRound < r.round → (s.recentBlocks.lookup r).isSome
  unmarked : s.gcEnabled = false → ∀ r info, s.recentBlocks.lookup r = some info → info.committed = false

variable {s : DagCommitState}

namespace DagInv

theorem lastCommitIndex_eq (hinv : DagInv s) : s.lastCommitIndex = s.flushedStore.commits.length := by
  rw [lastCommitIndex, hinv.lastCommit_eq]
  rcases hlast : s.flushedStore.readLastCommit with _ | last
  · rw [List.getLast?_eq_none_iff.mp hlast]
    rfl
  · exact hinv.flushed.readLastCommit_index hlast

theorem leader_round_le (hinv : DagInv s) : ∀ c ∈ s.flushedStore.commits, c.leader.round ≤ s.lastCommitRound := by
  intro c hc
  rw [lastCommitRound, hinv.lastCommit_eq]
  rcases hlast : s.flushedStore.readLastCommit with _ | last
  · rw [List.getLast?_eq_none_iff.mp hlast] at hc
    exact absurd hc List.not_mem_nil
  · exact hinv.flushed.leader_round_le_last hlast c hc

theorem mem_of_getBlock (hinv : DagInv s) {r : BlockRef} {b : VerifiedBlock} (h : s.getBlock r = some b) :
    b ∈ s.flushedStore.blocks ∧ b.reference = r := by
  rw [getBlock] at h
  rcases hr : s.recentBlocks.lookup r with _ | info
  · rw [hr] at h
    exact ⟨List.mem_append_left _ (ConsensusStore.mem_of_readBlock h), ConsensusStore.readBlock_reference h⟩
  · rw [hr, Option.some_inj] at h
    subst h
    exact ⟨(hinv.cached r info hr).2, (hinv.cached r info hr).1⟩

end DagInv

theorem calculateGcRound_mono {a b : ℕ} (h : a ≤ b) : s.calculateGcRound a ≤ s.calculateGcRound b := by
  unfold calculateGcRound
  split <;> omega

/-! ### Accepting a block -/

theorem acceptBlock_eq_ok {s' : DagCommitState} {nowMs : ℕ} {b : VerifiedBlock} (h : s.acceptBlock nowMs b = .ok s') :
    b.author < s.context.numAuthorities ∧
      (s' = s ∨ s.containsBlock b.reference = false ∧
        s' = { s with recentBlocks := s.recentBlocks.insert b.reference ⟨b, false⟩, blocksToWrite := s.blocksToWrite ++ [b] }) := by
  rw [acceptBlock] at h
  by_cases hg : b.round = GENESIS_ROUND
  · rw [if_pos hg] at h
    cases h
  rw [if_neg hg] at h
  by_cases ha : s.context.numAuthorities ≤ b.author
  · rw [if_pos ha] at h
    cases h
  rw [if_neg ha] at h
  refine ⟨by omega, ?_⟩
  by_cases hc : s.containsBlock b.reference = true
  · rw [if_pos hc] at h
    exact .inl (Except.ok.inj h).symm
  rw [if_neg hc] at h
  by_cases ht : nowMs < b.timestampMs
  · rw [if_pos ht] at h
    cases h
  rw [if_neg ht] at h
  by_cases ho : b.author = s.context.ownIndex ∧ s.getUncommittedBlocksAtSlot b.slot ≠ []
  · rw [if_pos ho] at h
    cases h
  rw [if_neg ho] at h
  exact .inr ⟨by simpa using hc, (Except.ok.inj h).symm⟩

theorem lookup_eq_none_of_containsBlock {r : BlockRef} (h : s.containsBlock r = false) : s.recentBlocks.lookup r = none := by
  rw [containsBlock] at h
  by_contra hr
  rw [if_pos (Option.isSome_iff_ne_none.mpr hr)] at h
  cases h

theorem DagInv.acceptBlock {s' : DagCommitState} {nowMs : ℕ} {b : VerifiedBlock} (hinv : DagInv s)
    (hb : ∀ b' ∈ s.flushedStore.blocks, b'.reference = b.reference → b' = b) (h : s.acceptBlock nowMs b = .ok s') :
    DagInv s' := by
  obtain ⟨hauthor, rfl | ⟨hnot, rfl⟩⟩ := acceptBlock_eq_ok h
  · exact hinv
  have hnone := lookup_eq_none_of_containsBlock hnot
  -- the new entry is `b`, unmarked; every other entry is as it was
  have hlookup : ∀ r, (s.recentBlocks.insert b.reference ⟨b, false⟩).lookup r =
      if r = b.reference then some ⟨b, false⟩ else s.recentBlocks.lookup r := by
    intro r
    split
    · subst r
      exact AList.lookup_insert _
    · exact AList.lookup_insert_ne ‹_›
  have hblocks : ∀ b', b' ∈ s.flushedStore.blocks ++ [b] ↔ b' ∈ s.store.blocks ++ (s.blocksToWrite ++ [b]) := by
    simp
  refine ⟨hinv.stored, hinv.flushed.of_blocks_append (by simp : _ = _ ++ [b]) rfl rfl (by simpa using hauthor),
    hinv.lastCommit_eq, hinv.rounds_eq, fun r info hr => ?_, fun b₁ hb₁ b₂ hb₂ href => ?_,
    fun hv hgc r info hr habove => ?_, fun hv hgc r hr habove => ?_, fun hgc r info hr => ?_⟩
  · rw [hlookup] at hr
    split at hr
    · rename_i hrb
      cases hr
      exact ⟨hrb.symm, (hblocks b).mp (List.mem_append_right _ (List.mem_singleton_self b))⟩
    · obtain ⟨href, hmem⟩ := hinv.cached r info hr
      exact ⟨href, (hblocks _).mp (List.mem_append_left _ hmem)⟩
  · rw [flushedStore_blocks, ← (hblocks b₁), List.mem_append, List.mem_singleton] at hb₁
    rw [flushedStore_blocks, ← (hblocks b₂), List.mem_append, List.mem_singleton] at hb₂
    rcases hb₁ with hb₁ | rfl <;> rcases hb₂ with hb₂ | rfl
    · exact hinv.refs_unique b₁ hb₁ b₂ hb₂ href
    · exact hb b₁ hb₁ href
    · exact (hb b₂ hb₂ href.symm).symm
    · rfl
  · rw [hlookup] at hr
    split at hr
    · -- a committed block above the GC round is cached, so `b` is not one
      cases hr
      subst r
      refine iff_of_false (by simp) fun hmem => ?_
      have := hinv.committed_cached hv hgc _ hmem habove
      rw [hnone] at this
      cases this
    · exact hinv.flags hv hgc r info hr habove
  · rw [hlookup]
    split
    · rfl
    · exact hinv.committed_cached hv hgc r hr habove
  · rw [hlookup] at hr
    split at hr
    · cases hr
      rfl
    · exact hinv.unmarked hgc r info hr

/-! ### Buffering a commit info -/

theorem addCommitInfo_eq_ok {s' : DagCommitState} (h : s.addCommitInfo = .ok s') :
    ∃ last, s.lastCommit = some last ∧
      s' = { s with commitInfoToWrite := s.commitInfoToWrite ++ [(last.reference, ⟨s.lastCommittedRounds⟩)] } := by
  rw [addCommitInfo] at h
  rcases hlast : s.lastCommit with _ | last
  · rw [hlast] at h
    cases h
  · rw [hlast] at h
    exact ⟨last, rfl, (Except.ok.inj h).symm⟩

theorem DagInv.addCommitInfo {s' : DagCommitState} (hinv : DagInv s) (h : s.addCommitInfo = .ok s') : DagInv s' := by
  obtain ⟨last, hlast, rfl⟩ := addCommitInfo_eq_ok h
  have hindex : last.index = s.flushedStore.commits.length :=
    hinv.flushed.readLastCommit_index (hinv.lastCommit_eq ▸ hlast)
  refine ⟨hinv.stored, hinv.flushed.of_info_append rfl rfl (List.append_assoc _ _ _).symm ?_, hinv.lastCommit_eq, hinv.rounds_eq,
    hinv.cached, hinv.refs_unique, hinv.flags, hinv.committed_cached, hinv.unmarked⟩
  simp only [TrustedCommit.reference_index]
  rw [hindex, List.take_length]
  exact ⟨le_rfl, hinv.rounds_eq⟩

/-! ### Flushing -/

theorem lookup_evictedRecentBlocks (r : BlockRef) :
    s.evictedRecentBlocks.lookup r =
      if r.author < s.context.numAuthorities ∧ r.round ≤ s.calculateAuthorityEvictionRound r.author then none
      else s.recentBlocks.lookup r := by
  rw [evictedRecentBlocks, lookup_foldl_erase]
  by_cases hr : r ∈ s.recentBlocks.keys
  · simp [List.mem_filter, hr]
  · have hnone : s.recentBlocks.lookup r = none := AList.lookup_eq_none.mpr (mt AList.mem_keys.mpr hr)
    simp [List.mem_filter, hr, hnone]

theorem calculateAuthorityEvictionRound_le (hgc : s.gcEnabled = true) (a : ℕ) :
    s.calculateAuthorityEvictionRound a ≤ s.gcRound := by
  rw [calculateAuthorityEvictionRound, if_pos hgc, gcEvictionRound]
  exact Nat.min_le_left _ _

theorem DagInv.flush_skip (hinv : DagInv s) (hb : s.blocksToWrite = []) (hc : s.commitsToWrite = []) :
    DagInv { s with blocksToWrite := [], commitsToWrite := [], commitInfoToWrite := [] } := by
  have hblocks : s.flushedStore.blocks = s.store.blocks := by simp [hb]
  have hcommits : s.flushedStore.commits = s.store.commits := by simp [hc]
  have hflushed : ({ s with blocksToWrite := [], commitsToWrite := [], commitInfoToWrite := [] } :
      DagCommitState).flushedStore = s.store := ConsensusStore.write_nil s.store
  refine ⟨hinv.stored, ?_, ?_, ?_, fun r info hr => ?_, ?_, ?_, ?_, hinv.unmarked⟩
  · rw [hflushed]
    exact hinv.stored
  · rw [hflushed, ConsensusStore.readLastCommit, ← hcommits]
    exact hinv.lastCommit_eq
  · rw [hflushed, ← hcommits]
    exact hinv.rounds_eq
  · rw [hflushed, ← hblocks]
    exact hinv.cached r info hr
  · rw [hflushed, ← hblocks]
    exact hinv.refs_unique
  · rw [hflushed, ← hcommits]
    exact hinv.flags
  · rw [hflushed, ← hcommits]
    exact hinv.committed_cached

theorem DagInv.flush_write (hinv : DagInv s) :
    DagInv { s with
      store := s.flushedStore
      blocksToWrite := []
      commitsToWrite := []
      commitInfoToWrite := []
      recentBlocks := s.evictedRecentBlocks } := by
  have hflushed : ({ s with
        store := s.flushedStore
        blocksToWrite := []
        commitsToWrite := []
        commitInfoToWrite := []
        recentBlocks := s.evictedRecentBlocks } : DagCommitState).flushedStore = s.flushedStore :=
    ConsensusStore.write_nil s.flushedStore
  have hevict : ∀ r info, s.evictedRecentBlocks.lookup r = some info → s.recentBlocks.lookup r = some info := by
    intro r info hr
    rw [lookup_evictedRecentBlocks] at hr
    split at hr
    · cases hr
    · exact hr
  refine ⟨hinv.flushed, ?_, ?_, ?_, fun r info hr => ?_, ?_, fun hv hgc r info hr habove => ?_,
    fun hv hgc r hr habove => ?_, fun hgc r info hr => hinv.unmarked hgc r info (hevict r info hr)⟩
  · rw [hflushed]
    exact hinv.flushed
  · rw [hflushed]
    exact hinv.lastCommit_eq
  · rw [hflushed]
    exact hinv.rounds_eq
  · rw [hflushed]
    exact hinv.cached r info (hevict r info hr)
  · rw [hflushed]
    exact hinv.refs_unique
  · rw [hflushed]
    exact hinv.flags hv hgc r info (hevict r info hr) habove
  · rw [hflushed] at hr
    have hle := calculateAuthorityEvictionRound_le (s := s) hgc r.author
    change (s.evictedRecentBlocks.lookup r).isSome
    change s.gcRound < r.round at habove
    rw [lookup_evictedRecentBlocks, if_neg (by omega)]
    exact hinv.committed_cached hv hgc r hr habove

theorem DagInv.flush (hinv : DagInv s) : DagInv s.flush := by
  rw [DagCommitState.flush]
  split
  · rename_i hempty
    exact hinv.flush_skip hempty.1 hempty.2
  · exact hinv.flush_write

theorem flush_lastCommit : s.flush.lastCommit = s.lastCommit := by
  rw [flush]
  split <;> rfl

theorem flush_context : s.flush.context = s.context := by
  rw [flush]
  split <;> rfl

theorem flush_commitsToWrite : s.flush.commitsToWrite = [] := by
  rw [flush]
  split <;> rfl

/-! ### Committing a leader's sub-dag -/

theorem setCommittedOrPanic_eq_ok {s s' : DagCommitState} {panic : BlockRef → CommitPanic} {r : BlockRef}
    (h : s.setCommittedOrPanic panic r = .ok s') :
    ∃ info, s.recentBlocks.lookup r = some info ∧ info.committed = false ∧
      s' = { s with recentBlocks := s.recentBlocks.insert r { info with committed := true } } := by
  rw [setCommittedOrPanic, setCommitted] at h
  rcases hr : s.recentBlocks.lookup r with _ | info
  · rw [hr] at h
    cases h
  · rw [hr] at h
    cases hc : info.committed
    · simp [hc] at h
      exact ⟨info, rfl, hc, h.symm⟩
    · simp [hc] at h

theorem foldlM_setCommitted_eq_ok {f : DagCommitState → BlockRef → Except CommitPanic DagCommitState}
    (hf : ∀ s r s', f s r = .ok s' → ∃ info, s.recentBlocks.lookup r = some info ∧ info.committed = false ∧
      s' = { s with recentBlocks := s.recentBlocks.insert r { info with committed := true } }) :
    ∀ {refs : List BlockRef} {s t : DagCommitState}, refs.foldlM f s = .ok t →
      refs.Nodup ∧ (∀ r ∈ refs, ∃ info, s.recentBlocks.lookup r = some info ∧ info.committed = false) ∧
        t = { s with recentBlocks := t.recentBlocks } ∧
        ∀ r, t.recentBlocks.lookup r = (s.recentBlocks.lookup r).map (markCommitted refs r)
  | [], s, t, h => by
    obtain rfl := (except_pure_eq_ok.mp h).symm
    refine ⟨List.nodup_nil, fun _ h => absurd h List.not_mem_nil, rfl, fun r => ?_⟩
    rw [show markCommitted [] r = id from funext (markCommitted_nil r), Option.map_id]
    rfl
  | r :: refs, s, t, h => by
    rw [List.foldlM_cons] at h
    obtain ⟨s₁, h₁, h⟩ := except_bind_eq_ok.mp h
    obtain ⟨info, hinfo, hfresh, rfl⟩ := hf s r s₁ h₁
    obtain ⟨hnodup, hcached, hfields, hmarks⟩ := foldlM_setCommitted_eq_ok hf h
    -- `r` is marked after its own step, so no later step meets it again
    have hr : r ∉ refs := by
      intro hr
      obtain ⟨info', hinfo', hfresh'⟩ := hcached r hr
      rw [AList.lookup_insert, Option.some_inj] at hinfo'
      rw [← hinfo'] at hfresh'
      cases hfresh'
    refine ⟨List.nodup_cons.mpr ⟨hr, hnodup⟩, ?_, by rw [hfields], fun r' => ?_⟩
    · intro r' hr'
      rcases List.mem_cons.mp hr' with rfl | hr'
      · exact ⟨info, hinfo, hfresh⟩
      · obtain ⟨info', hinfo', hfresh'⟩ := hcached r' hr'
        rw [AList.lookup_insert_ne (fun h => hr (by rw [← h]; exact hr'))] at hinfo'
        exact ⟨info', hinfo', hfresh'⟩
    · rw [hmarks r']
      by_cases h' : r' = r
      · subst h'
        rw [AList.lookup_insert, hinfo]
        simp [markCommitted, hr]
      · rw [AList.lookup_insert_ne h']
        cases s.recentBlocks.lookup r' <;> simp [markCommitted, h']

theorem foldlM_committedOnce_eq_ok {f : List BlockRef → VerifiedBlock → Except CommitPanic (List BlockRef)}
    (hf : ∀ acc b acc', f acc b = .ok acc' → b.reference ∉ acc ∧ acc' = b.reference :: acc) :
    ∀ {blocks : List VerifiedBlock} {acc acc' : List BlockRef}, blocks.foldlM f acc = .ok acc' →
      (blocks.map (·.reference)).Nodup ∧ ∀ b ∈ blocks, b.reference ∉ acc
  | [], _, _, _ => ⟨List.nodup_nil, fun _ h => absurd h List.not_mem_nil⟩
  | b :: blocks, acc, acc', h => by
    rw [List.foldlM_cons] at h
    obtain ⟨acc₁, h₁, h⟩ := except_bind_eq_ok.mp h
    obtain ⟨hb, rfl⟩ := hf acc b acc₁ h₁
    obtain ⟨hnodup, hfresh⟩ := foldlM_committedOnce_eq_ok hf h
    refine ⟨List.nodup_cons.mpr ⟨fun hmem => ?_, hnodup⟩, fun b' hb' => ?_⟩
    · obtain ⟨b', hb', href⟩ := List.mem_map.mp hmem
      exact hfresh b' hb' (by rw [href]; exact List.mem_cons_self)
    · rcases List.mem_cons.mp hb' with rfl | hb'
      · exact hb
      · exact fun h => hfresh b' hb' (List.mem_cons_of_mem _ h)

theorem linearizeSubDag_eq_ok {d d' : DagCommitState} {toCommit sorted : List VerifiedBlock}
    (h : Linearizer.linearizeSubDag d toCommit = .ok (d', sorted)) :
    sorted = sortSubDagBlocks toCommit ∧ (toCommit.map (·.reference)).Nodup ∧
      (d.gcEnabled = true → ∀ b ∈ toCommit, d.gcRound < b.round) ∧
      (d.context.linearizeSubdagV2 = true → d.gcEnabled = true ∧
        (∀ b ∈ toCommit, ∃ info, d.recentBlocks.lookup b.reference = some info ∧ info.committed = false) ∧
        d' = { d with recentBlocks := d'.recentBlocks } ∧
        ∀ r, d'.recentBlocks.lookup r = (d.recentBlocks.lookup r).map (markCommitted (toCommit.map (·.reference)) r)) ∧
      (d.context.linearizeSubdagV2 = false → d' = d) := by
  unfold Linearizer.linearizeSubDag at h
  by_cases hbad : d.context.linearizeSubdagV2 = true ∧ ¬0 < d.context.gcDepth
  · rw [if_pos hbad] at h
    cases h
  rw [if_neg hbad] at h
  dsimp only at h
  by_cases hv : d.context.linearizeSubdagV2 = true
  · rw [if_pos hv] at h
    obtain ⟨t, ht, h⟩ := except_bind_eq_ok.mp h
    obtain ⟨hnodup, hcached, hfields, hmarks⟩ :=
      foldlM_setCommitted_eq_ok (fun s r s' h => setCommittedOrPanic_eq_ok h) ht
    have hgc : d.gcEnabled = true := by
      unfold gcEnabled
      simp only [decide_eq_true_eq]
      by_contra hoff
      exact hbad ⟨hv, hoff⟩
    have htgc : t.gcEnabled = true := by rw [hfields]; exact hgc
    rw [if_pos htgc] at h
    split at h
    · cases h
    · rename_i hfind
      obtain ⟨rfl, rfl⟩ := Prod.mk.inj (except_pure_eq_ok.mp h).symm
      refine ⟨rfl, hnodup, fun _ b hb => ?_, fun _ => ⟨hgc, fun b hb => hcached _ (List.mem_map_of_mem hb), hfields, hmarks⟩,
        fun hv' => absurd hv (by simp [hv'])⟩
      simpa using List.find?_eq_none.mp hfind b hb
  · rw [if_neg hv] at h
    obtain ⟨acc, hacc, h⟩ := except_bind_eq_ok.mp h
    obtain ⟨hnodup, -⟩ := foldlM_committedOnce_eq_ok (fun acc b acc' h => by
      split at h
      · cases h
      · exact ⟨‹_›, (Except.ok.inj h).symm⟩) hacc
    rw [except_pure_bind] at h
    have htail : d' = d ∧ sorted = sortSubDagBlocks toCommit ∧ (d.gcEnabled = true → ∀ b ∈ toCommit, d.gcRound < b.round) := by
      by_cases hgc : d.gcEnabled = true
      · rw [if_pos hgc] at h
        split at h
        · cases h
        · rename_i hfind
          obtain ⟨rfl, rfl⟩ := Prod.mk.inj (except_pure_eq_ok.mp h).symm
          exact ⟨rfl, rfl, fun _ b hb => by simpa using List.find?_eq_none.mp hfind b hb⟩
      · rw [if_neg hgc] at h
        obtain ⟨rfl, rfl⟩ := Prod.mk.inj (except_pure_eq_ok.mp h).symm
        exact ⟨rfl, rfl, fun h => absurd h hgc⟩
    obtain ⟨rfl, rfl, habove⟩ := htail
    exact ⟨rfl, hnodup, habove, fun hv' => absurd hv' hv, fun _ => rfl⟩

theorem collectSubDagAndCommit_eq_ok {d d₁ : DagCommitState} {leader : VerifiedBlock} {ancestors : List VerifiedBlock}
    {digest : ℕ} {scores : List (ℕ × ℕ)} {subDag : CommittedSubDag} {commit : TrustedCommit}
    (h : Linearizer.collectSubDagAndCommit d leader ancestors digest scores = .ok (d₁, subDag, commit)) :
    ∃ sorted, Linearizer.linearizeSubDag d (leader :: ancestors) = .ok (d₁, sorted) ∧
      commit = ⟨d.lastCommitIndex + 1, d.lastCommitDigest, max leader.timestampMs d.lastCommitTimestampMs,
        leader.reference, sorted.map (·.reference), digest⟩ ∧
      subDag = ⟨leader.reference, sorted, commit.timestampMs, commit.reference, scores⟩ := by
  unfold Linearizer.collectSubDagAndCommit at h
  obtain ⟨⟨d₁', sorted⟩, hlin, h⟩ := except_bind_eq_ok.mp h
  obtain ⟨rfl, rfl, rfl⟩ : d₁' = d₁ ∧ _ ∧ _ := by simpa using h
  exact ⟨sorted, hlin, rfl, rfl⟩

theorem addCommit_eq_ok_of_next {d d' : DagCommitState} {c : TrustedCommit} (hindex : c.index = d.lastCommitIndex + 1)
    (h : d.addCommit c = .ok d') :
    (∀ r ∈ c.blocks, r.author < d.context.numAuthorities) ∧
      d' = { d with
        lastCommit := some c
        lastCommittedRounds := fun a => max (d.lastCommittedRounds a) (maxRoundOf c.blocks a)
        commitsToWrite := d.commitsToWrite ++ [c] } := by
  have happend : d.appendCommit c = .ok d' := by
    rw [addCommit] at h
    rcases hlast : d.lastCommit with _ | last
    · rw [hlast] at h
      rw [lastCommitIndex, hlast] at hindex
      rwa [if_neg (by simp [hindex, GENESIS_COMMIT_INDEX])] at h
    · rw [hlast] at h
      rw [lastCommitIndex, hlast] at hindex
      dsimp only at h hindex
      rw [if_neg (by omega), if_neg (by omega)] at h
      split at h
      · cases h
      · exact h
  rw [appendCommit] at happend
  obtain ⟨rounds, hrounds, h⟩ := except_bind_eq_ok.mp happend
  obtain ⟨hauthors, rfl⟩ := updateCommittedRounds_eq_ok_iff.mp hrounds
  exact ⟨hauthors, (except_pure_eq_ok.mp h).symm⟩

theorem commitSubDag_eq_ok {d d₁ d₂ : DagCommitState} {leader : VerifiedBlock} {ancestors : List VerifiedBlock}
    {digest : ℕ} {scores : List (ℕ × ℕ)} {subDag : CommittedSubDag} {commit : TrustedCommit}
    (hcollect : Linearizer.collectSubDagAndCommit d leader ancestors digest scores = .ok (d₁, subDag, commit))
    (hadd : d₁.addCommit commit = .ok d₂) :
    ((leader :: ancestors).map (·.reference)).Nodup ∧
      (d.gcEnabled = true → ∀ b ∈ leader :: ancestors, d.gcRound < b.round) ∧
      (d.context.linearizeSubdagV2 = true → d.gcEnabled = true ∧
        ∀ b ∈ leader :: ancestors, ∃ info, d.recentBlocks.lookup b.reference = some info ∧ info.committed = false) ∧
      (∀ r ∈ commit.blocks, r.author < d.context.numAuthorities) ∧
      commit = ⟨d.lastCommitIndex + 1, d.lastCommitDigest, max leader.timestampMs d.lastCommitTimestampMs,
        leader.reference, (sortSubDagBlocks (leader :: ancestors)).map (·.reference), digest⟩ ∧
      subDag = ⟨leader.reference, sortSubDagBlocks (leader :: ancestors), commit.timestampMs, commit.reference, scores⟩ ∧
      d₂ = { d with
        recentBlocks := d₂.recentBlocks
        lastCommit := some commit
        lastCommittedRounds := fun a => max (d.lastCommittedRounds a) (maxRoundOf commit.blocks a)
        commitsToWrite := d.commitsToWrite ++ [commit] } ∧
      ∀ r, d₂.recentBlocks.lookup r = (d.recentBlocks.lookup r).map
        (markCommitted (if d.context.linearizeSubdagV2 then (leader :: ancestors).map (·.reference) else []) r) := by
  obtain ⟨sorted, hlin, hcommit, hsubDag⟩ := collectSubDagAndCommit_eq_ok hcollect
  obtain ⟨rfl, hnodup, habove, hv2, hv1⟩ := linearizeSubDag_eq_ok hlin
  -- the linearizer changes the cache only, marking the blocks with V2
  have hd₁ : d₁ = { d with recentBlocks := d₁.recentBlocks } ∧ ∀ r, d₁.recentBlocks.lookup r =
      (d.recentBlocks.lookup r).map
        (markCommitted (if d.context.linearizeSubdagV2 then (leader :: ancestors).map (·.reference) else []) r) := by
    cases hv : d.context.linearizeSubdagV2
    · rw [hv1 hv]
      refine ⟨rfl, fun r => ?_⟩
      rw [if_neg (by simp), show markCommitted [] r = id from funext (markCommitted_nil r), Option.map_id]
      rfl
    · obtain ⟨-, -, hfields, hmarks⟩ := hv2 hv
      exact ⟨hfields, fun r => by rw [hmarks r, if_pos rfl]⟩
  have hindex : commit.index = d₁.lastCommitIndex + 1 := by
    rw [hcommit, hd₁.1]
    rfl
  obtain ⟨hauthors, rfl⟩ := addCommit_eq_ok_of_next hindex hadd
  refine ⟨hnodup, habove, fun hv => ⟨(hv2 hv).1, fun b hb => (hv2 hv).2.1 b hb⟩, ?_, hcommit, hsubDag, ?_, hd₁.2⟩
  · rw [hd₁.1] at hauthors
    exact hauthors
  · rw [hd₁.1]

theorem markCommitted_block (refs : List BlockRef) (r : BlockRef) (info : BlockInfo) :
    (markCommitted refs r info).block = info.block := by
  unfold markCommitted
  split <;> rfl

theorem markCommitted_committed (refs : List BlockRef) (r : BlockRef) (info : BlockInfo) :
    (markCommitted refs r info).committed = true ↔ info.committed = true ∨ r ∈ refs := by
  unfold markCommitted
  split <;> simp_all

/-- What the committer and the linearizer's walk give `handle_commit` for one leader,
at the state it meets: a leader above the last committed one, ancestors below it, all
read from the DAG state, and without V2 each above its author's last committed round. -/
structure SubDagGiven (d : DagCommitState) (leader : VerifiedBlock) (ancestors : List VerifiedBlock) : Prop where
  leader_above : d.lastCommitRound < leader.round
  ancestors_below : ∀ a ∈ ancestors, a.round < leader.round
  from_dag : ∀ b ∈ leader :: ancestors, d.getBlock b.reference = some b
  above_committed : d.context.linearizeSubdagV2 = false →
    ∀ b ∈ leader :: ancestors, d.lastCommittedRounds b.author < b.round

theorem DagInv.commitSubDag {d d₁ d₂ : DagCommitState} {leader : VerifiedBlock} {ancestors : List VerifiedBlock}
    {digest : ℕ} {scores : List (ℕ × ℕ)} {subDag : CommittedSubDag} {commit : TrustedCommit}
    (hinv : DagInv d) (hgiven : SubDagGiven d leader ancestors)
    (hcollect : Linearizer.collectSubDagAndCommit d leader ancestors digest scores = .ok (d₁, subDag, commit))
    (hadd : d₁.addCommit commit = .ok d₂) : DagInv d₂ := by
  obtain ⟨hnodup, habove, hv2, hauthors, hcommit, -, hd₂, hmarks⟩ := commitSubDag_eq_ok hcollect hadd
  have hperm : (sortSubDagBlocks (leader :: ancestors)).Perm (leader :: ancestors) := List.mergeSort_perm _ _
  have hblocks : ∀ r, r ∈ commit.blocks ↔ ∃ b ∈ leader :: ancestors, b.reference = r := by
    intro r
    rw [hcommit, List.mem_map]
    simp only [hperm.mem_iff]
  have hleader : commit.leader = leader.reference := by rw [hcommit]
  have hknown : ∀ b ∈ leader :: ancestors, b ∈ d.flushedStore.blocks := fun b hb =>
    (hinv.mem_of_getBlock (hgiven.from_dag b hb)).1
  have hbelow : ∀ b ∈ leader :: ancestors, b.round ≤ leader.round := by
    intro b hb
    rcases List.mem_cons.mp hb with rfl | hb
    · exact le_rfl
    · exact (hgiven.ancestors_below b hb).le
  -- no collected block is in an earlier commit
  have hfresh : ∀ b ∈ leader :: ancestors, b.reference ∉ committedRefs d.flushedStore.commits := by
    intro b hb hmem
    cases hv : d.context.linearizeSubdagV2
    · have hlt := hgiven.above_committed hv b hb
      have hle := round_le_maxRoundOf hmem
      rw [hinv.rounds_eq] at hlt
      simp only [VerifiedBlock.reference_round, VerifiedBlock.reference_author] at hle
      omega
    · obtain ⟨hgc, hcached⟩ := hv2 hv
      obtain ⟨info, hinfo, hunset⟩ := hcached b hb
      have hset := (hinv.flags hv hgc b.reference info hinfo (habove hgc b hb)).mpr hmem
      rw [hunset] at hset
      cases hset
  -- the new state, field by field
  have hctx : d₂.context = d.context := by rw [hd₂]
  have hstore : d₂.store = d.store := by rw [hd₂]
  have hflushedBlocks : d₂.flushedStore.blocks = d.flushedStore.blocks := by rw [hd₂]; rfl
  have hflushedCommits : d₂.flushedStore.commits = d.flushedStore.commits ++ [commit] := by rw [hd₂]; simp
  have hflushedInfo : d₂.flushedStore.commitInfo = d.flushedStore.commitInfo := by rw [hd₂]; rfl
  have hlast : d₂.lastCommit = some commit := by rw [hd₂]
  have hrounds : d₂.lastCommittedRounds = fun a => max (d.lastCommittedRounds a) (maxRoundOf commit.blocks a) := by
    rw [hd₂]
  have hgcEnabled : d₂.gcEnabled = d.gcEnabled := by rw [hd₂]; rfl
  have hgcRound : d₂.gcRound = d.calculateGcRound leader.round := by
    rw [hd₂]
    show d.calculateGcRound commit.leader.round = _
    rw [hleader]
    rfl
  have hgcRise : d.gcRound ≤ d₂.gcRound := by
    rw [hgcRound]
    exact calculateGcRound_mono hgiven.leader_above.le
  refine ⟨by rw [hctx, hstore]; exact hinv.stored, ?_, ?_, ?_, fun r info hr => ?_, ?_,
    fun hv hgc r info hr hr' => ?_, fun hv hgc r hr hr' => ?_, fun hgc r info hr => ?_⟩
  · rw [hctx]
    refine hinv.flushed.of_commit_append hflushedBlocks hflushedCommits hflushedInfo
      (by rw [hcommit, hinv.lastCommitIndex_eq]) ((hblocks _).mpr ⟨leader, List.mem_cons_self, hleader.symm⟩)
      (fun r hr => ?_) (fun c' hc' => ?_) (by rw [hcommit]; exact (hperm.map _).nodup_iff.mpr hnodup)
      (fun r hr => ?_) hauthors (fun r hr => ?_)
    · obtain ⟨b, hb, rfl⟩ := (hblocks r).mp hr
      rw [hleader]
      exact hbelow b hb
    · rw [hleader]
      exact lt_of_le_of_lt (hinv.leader_round_le c' hc') hgiven.leader_above
    · obtain ⟨b, hb, rfl⟩ := (hblocks r).mp hr
      exact hfresh b hb
    · obtain ⟨b, hb, rfl⟩ := (hblocks r).mp hr
      exact ⟨b, hknown b hb, rfl⟩
  · rw [hlast, ConsensusStore.readLastCommit, hflushedCommits, List.getLast?_concat]
  · rw [hrounds, hflushedCommits, committedRefs_append, committedRefs_singleton, hinv.rounds_eq]
    funext a
    rw [maxRoundOf_append]
  · rw [hmarks] at hr
    obtain ⟨info₀, h₀, rfl⟩ := Option.map_eq_some_iff.mp hr
    rw [markCommitted_block, hflushedBlocks]
    exact hinv.cached r info₀ h₀
  · rw [hflushedBlocks]
    exact hinv.refs_unique
  · rw [hctx] at hv
    rw [hgcEnabled] at hgc
    rw [hmarks, if_pos hv] at hr
    obtain ⟨info₀, h₀, rfl⟩ := Option.map_eq_some_iff.mp hr
    rw [markCommitted_committed, hinv.flags hv hgc r info₀ h₀ (lt_of_le_of_lt hgcRise hr'), hflushedCommits,
      committedRefs_append, committedRefs_singleton, List.mem_append, hblocks, List.mem_map]
  · rw [hctx] at hv
    rw [hgcEnabled] at hgc
    rw [hmarks, Option.isSome_map]
    rw [hflushedCommits, committedRefs_append, committedRefs_singleton, List.mem_append] at hr
    rcases hr with hr | hr
    · exact hinv.committed_cached hv hgc r hr (lt_of_le_of_lt hgcRise hr')
    · obtain ⟨b, hb, rfl⟩ := (hblocks _).mp hr
      obtain ⟨info, hinfo, -⟩ := (hv2 hv).2 b hb
      rw [hinfo]
      rfl
  · rw [hgcEnabled] at hgc
    rw [hmarks] at hr
    obtain ⟨info₀, h₀, rfl⟩ := Option.map_eq_some_iff.mp hr
    -- without GC there is no V2 commit, so nothing is marked
    have hv : d.context.linearizeSubdagV2 = false := by
      cases hv : d.context.linearizeSubdagV2
      · rfl
      · rw [(hv2 hv).1] at hgc
        cases hgc
    rw [if_neg (by simp [hv])]
    exact hinv.unmarked hgc r info₀ h₀

/-! ### `handle_commit` and `new` -/

/-- `SubDagGiven` for each leader `handle_commit` gets, at the state the loop reaches it in. -/
def LeadersGiven : DagCommitState → List (VerifiedBlock × List VerifiedBlock × ℕ) → Prop
  | _, [] => True
  | d, (leader, ancestors, digest) :: leaders => SubDagGiven d leader ancestors ∧
    ∀ scores d₁ subDag commit d₂,
      Linearizer.collectSubDagAndCommit d leader ancestors digest scores = .ok (d₁, subDag, commit) →
        d₁.addCommit commit = .ok d₂ → LeadersGiven d₂ leaders

theorem handleCommitLoop_cons_eq_ok {leader : VerifiedBlock} {ancestors : List VerifiedBlock} {digest : ℕ}
    {leaders : List (VerifiedBlock × List VerifiedBlock × ℕ)} {scores : List (ℕ × ℕ)} {d d' : DagCommitState}
    {produced : List (TrustedCommit × CommittedSubDag)}
    (h : Linearizer.handleCommitLoop ((leader, ancestors, digest) :: leaders) scores d = .ok (d', produced)) :
    ∃ d₁ subDag commit d₂ rest,
      Linearizer.collectSubDagAndCommit d leader ancestors digest scores = .ok (d₁, subDag, commit) ∧
        d₁.addCommit commit = .ok d₂ ∧ Linearizer.handleCommitLoop leaders [] d₂ = .ok (d', rest) ∧
        produced = (commit, subDag) :: rest := by
  rw [Linearizer.handleCommitLoop] at h
  obtain ⟨⟨d₁, subDag, commit⟩, h₁, h⟩ := except_bind_eq_ok.mp h
  obtain ⟨d₂, h₂, h⟩ := except_bind_eq_ok.mp h
  obtain ⟨⟨d₃, rest⟩, h₃, h⟩ := except_bind_eq_ok.mp h
  obtain ⟨rfl, rfl⟩ := Prod.mk.inj (except_pure_eq_ok.mp h).symm
  exact ⟨d₁, subDag, commit, d₂, rest, h₁, h₂, h₃, rfl⟩


theorem DagInv.handleCommitLoop :
    ∀ {leaders : List (VerifiedBlock × List VerifiedBlock × ℕ)} {scores : List (ℕ × ℕ)} {d d' : DagCommitState}
      {produced : List (TrustedCommit × CommittedSubDag)},
      DagInv d → LeadersGiven d leaders → Linearizer.handleCommitLoop leaders scores d = .ok (d', produced) →
        DagInv d' ∧ d'.context = d.context ∧ d'.store = d.store ∧ d'.blocksToWrite = d.blocksToWrite ∧
          d'.commitsToWrite = d.commitsToWrite ++ produced.map (·.1) ∧ produced.length = leaders.length ∧
          ∀ p ∈ produced, LoadsAs d'.flushedStore p.1 p.2
  | [], scores, d, d', produced, hinv, _, h => by
    obtain ⟨rfl, rfl⟩ := Prod.mk.inj (Except.ok.inj h).symm
    exact ⟨hinv, rfl, rfl, rfl, by simp, rfl, fun p hp => absurd hp List.not_mem_nil⟩
  | (leader, ancestors, digest) :: leaders, scores, d, d', produced, hinv, hgiven, h => by
    obtain ⟨d₁, subDag, commit, d₂, rest, h₁, h₂, h₃, rfl⟩ := handleCommitLoop_cons_eq_ok h
    obtain ⟨-, -, -, -, hcommit, hsubDag, hd₂, -⟩ := commitSubDag_eq_ok h₁ h₂
    obtain ⟨hinv', hctx, hstore, hbw, hcw, hlen, hloads⟩ :=
      DagInv.handleCommitLoop (hinv.commitSubDag hgiven.1 h₁ h₂) (hgiven.2 scores d₁ subDag commit d₂ h₁ h₂) h₃
    have hfields : d₂.context = d.context ∧ d₂.store = d.store ∧ d₂.blocksToWrite = d.blocksToWrite ∧
        d₂.commitsToWrite = d.commitsToWrite ++ [commit] := by
      rw [hd₂]
      exact ⟨rfl, rfl, rfl, rfl⟩
    have hblocks : d'.flushedStore.blocks = d.flushedStore.blocks := by
      simp [hstore, hbw, hfields.2.1, hfields.2.2.1]
    refine ⟨hinv', hctx.trans hfields.1, hstore.trans hfields.2.1, hbw.trans hfields.2.2.1,
      by rw [hcw, hfields.2.2.2]; simp, by simp [hlen], fun p hp => ?_⟩
    rcases List.mem_cons.mp hp with rfl | hp
    · -- the sorted blocks are flushed blocks, which their references name
      have hperm : (sortSubDagBlocks (leader :: ancestors)).Perm (leader :: ancestors) := List.mergeSort_perm _ _
      have hread : ∀ b ∈ sortSubDagBlocks (leader :: ancestors), d.flushedStore.readBlock b.reference = some b :=
        fun b hb => ConsensusStore.readBlock_of_mem hinv.refs_unique
          (hinv.mem_of_getBlock (hgiven.1.from_dag b (hperm.mem_iff.mp hb))).1
      refine LoadsAs.of_blocks_eq ⟨by rw [hsubDag, hcommit], ?_, by rw [hsubDag], by rw [hsubDag]⟩ hblocks
      rw [hsubDag, hcommit]
      exact (ConsensusStore.filterMap_readBlock_map_reference hread).symm
    · exact hloads p hp

theorem RecoveredFrom.dagInv {context : DagContext} {store : ConsensusStore} {s : DagCommitState}
    (h : RecoveredFrom context store s) (hstore : StoreInv context.numAuthorities store)
    (hunique : ∀ b ∈ store.blocks, ∀ b' ∈ store.blocks, b.reference = b'.reference → b = b') : DagInv s := by
  have hflushed : s.flushedStore = store := by
    rw [flushedStore, h.blocksToWrite_eq, h.commitsToWrite_eq, h.commitInfoToWrite_eq, ConsensusStore.write_nil, h.store_eq]
  refine ⟨by rw [h.store_eq, h.context_eq]; exact hstore, by rw [hflushed, h.context_eq]; exact hstore,
    by rw [hflushed]; exact h.lastCommit_eq, by rw [hflushed]; exact h.rounds_eq,
    fun r info hr => by rw [hflushed]; exact h.cached r info hr, by rw [hflushed]; exact hunique,
    fun _ hgc r info hr habove => ?_, fun _ hgc r hr habove => ?_, fun hgc r info hr => ?_⟩
  · rw [hflushed, h.committed r info hr]
    simp [hgc, habove]
  · rw [hflushed] at hr
    obtain ⟨b, hb, rfl⟩ := hstore.commit_blocks r hr
    exact h.loaded hgc b hb habove
  · have := h.committed r info hr
    rw [hgc] at this
    simpa using this

end DagCommitState

end Iota.Consensus
