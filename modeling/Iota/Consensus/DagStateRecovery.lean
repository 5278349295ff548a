import Iota.Consensus.DagStateCommit
import Iota.Lib.Consecutive

/-! What `DagState::new` rebuilds from the store.  A store that the node has written
holds commits with indices `1, 2, …`, each naming its leader among its blocks, no
block above its leader's round, leaders in increasing rounds and no block in two
commits; every committed block is stored, and every commit info holds the committed
rounds of the commits up to its own.  From such a store, `new` recovers the committed
round of every authority and the last commit, and, with GC on, marks as committed
exactly the cached blocks above the GC round that some commit holds. -/

namespace Iota.Consensus

open Iota.Lib

/-- The highest round of the author's blocks among the references. -/
def maxRoundOf (refs : List BlockRef) (author : ℕ) : ℕ :=
  ((refs.filter (·.author = author)).map (·.round)).foldr max 0

@[simp] theorem maxRoundOf_nil : maxRoundOf [] = fun _ => 0 := rfl

theorem maxRoundOf_cons (r : BlockRef) (refs : List BlockRef) (author : ℕ) :
    maxRoundOf (r :: refs) author = if r.author = author then max r.round (maxRoundOf refs author) else maxRoundOf refs author := by
  by_cases h : r.author = author <;> simp [maxRoundOf, h]

theorem maxRoundOf_append (refs refs' : List BlockRef) (author : ℕ) :
    maxRoundOf (refs ++ refs') author = max (maxRoundOf refs author) (maxRoundOf refs' author) := by
  induction refs with
  | nil => simp
  | cons r refs ih =>
    rw [List.cons_append, maxRoundOf_cons, maxRoundOf_cons, ih]
    split <;> omega

/-- The references of the blocks of the commits. -/
def committedRefs (commits : List TrustedCommit) : List BlockRef := commits.flatMap (·.blocks)

@[simp] theorem committedRefs_nil : committedRefs [] = [] := rfl

@[simp] theorem committedRefs_append (commits commits' : List TrustedCommit) :
    committedRefs (commits ++ commits') = committedRefs commits ++ committedRefs commits' := by
  simp [committedRefs]

theorem mem_committedRefs {commits : List TrustedCommit} {r : BlockRef} :
    r ∈ committedRefs commits ↔ ∃ c ∈ commits, r ∈ c.blocks := by
  simp [committedRefs]

/-- What every store the node writes satisfies. -/
structure StoreInv (numAuthorities : ℕ) (store : ConsensusStore) : Prop where
  indices : Consecutive (·.index) 1 store.commits
  leader_mem : ∀ c ∈ store.commits, c.leader ∈ c.blocks
  round_le_leader : ∀ c ∈ store.commits, ∀ r ∈ c.blocks, r.round ≤ c.leader.round
  leaders_increase : store.commits.Pairwise fun c c' => c.leader.round < c'.leader.round
  refs_nodup : (committedRefs store.commits).Nodup
  authors : ∀ r ∈ committedRefs store.commits, r.author < numAuthorities
  commit_blocks : ∀ r ∈ committedRefs store.commits, ∃ b ∈ store.blocks, b.reference = r
  block_authors : ∀ b ∈ store.blocks, b.author < numAuthorities
  info : ∀ p ∈ store.commitInfo, p.1.index ≤ store.commits.length ∧
    p.2.committedRounds = maxRoundOf (committedRefs (store.commits.take p.1.index))

/-! ### Reading the store -/

namespace ConsensusStore

variable {store : ConsensusStore}

theorem readBlock_reference {r : BlockRef} {b : VerifiedBlock} (h : store.readBlock r = some b) : b.reference = r := by
  simpa using List.find?_some h

theorem readBlock_isSome {r : BlockRef} (h : ∃ b ∈ store.blocks, b.reference = r) : (store.readBlock r).isSome := by
  obtain ⟨b, hb, hr⟩ := h
  rw [BlockStore.readBlock, List.find?_isSome]
  exact ⟨b, hb, by simp [hr]⟩

theorem mem_of_readBlock {r : BlockRef} {b : VerifiedBlock} (h : store.readBlock r = some b) : b ∈ store.blocks :=
  List.mem_of_find?_eq_some h

theorem scanLastBlocksByAuthor_one_isSome (author : ℕ) : (store.scanLastBlocksByAuthor author 1 none).isSome := by
  rw [BlockStore.scanLastBlocksByAuthor_of_le_four _ _ _ _ (Nat.le_trans (Nat.min_le_left _ _) (by decide))]
  obtain ⟨blocks, hblocks, -⟩ :=
    store.toBlockStore.mapM_readBlock_of_subset fun r hr => store.toBlockStore.lastRefs_subset hr
  rw [hblocks]
  rfl

theorem mapM_readBlock_eq_ok {refs : List BlockRef} {f : BlockRef → Except CommitPanic VerifiedBlock}
    (hf : ∀ r b, store.readBlock r = some b → f r = .ok b) (h : ∀ r ∈ refs, ∃ b ∈ store.blocks, b.reference = r) :
    refs.mapM f = .ok (refs.filterMap store.readBlock) := by
  induction refs with
  | nil => rfl
  | cons r refs ih =>
    obtain ⟨b, hb⟩ := Option.isSome_iff_exists.mp (readBlock_isSome (h r List.mem_cons_self))
    rw [List.mapM_cons, hf r b hb, except_ok_bind, ih fun r' hr' => h r' (List.mem_cons_of_mem r hr'),
      List.filterMap_cons, hb]
    rfl

theorem map_reference_filterMap_readBlock {refs : List BlockRef} (h : ∀ r ∈ refs, ∃ b ∈ store.blocks, b.reference = r) :
    (refs.filterMap store.readBlock).map (·.reference) = refs := by
  induction refs with
  | nil => rfl
  | cons r refs ih =>
    obtain ⟨b, hb⟩ := Option.isSome_iff_exists.mp (readBlock_isSome (h r List.mem_cons_self))
    rw [List.filterMap_cons, hb, List.map_cons, readBlock_reference hb, ih fun r' hr' => h r' (List.mem_cons_of_mem r hr')]

end ConsensusStore

namespace StoreInv

variable {n : ℕ} {store : ConsensusStore} (hinv : StoreInv n store)
include hinv


theorem scanCommits_from (j : ℕ) :
    store.scanCommits (j + 1) store.commits.length = store.commits.drop j := by
  have hdrop := hinv.indices.filter_le (j + 1)
  rw [Nat.add_sub_cancel] at hdrop
  rw [ConsensusStore.scanCommits, ← hdrop]
  refine List.filter_congr fun c hc => ?_
  have := hinv.indices.mem_key_lt hc
  simp only [decide_eq_decide]
  omega

theorem scanCommits_at {k : ℕ} (hk : 1 ≤ k) :
    (store.scanCommits k k).head? = store.commits[k - 1]? := by
  have hfilter := hinv.indices.filter_eq hk
  rw [ConsensusStore.scanCommits, List.filter_congr (q := fun c => decide (c.index = k)) (fun c _ => by
    simp only [decide_eq_decide]
    omega), hfilter]
  cases store.commits[k - 1]? <;> rfl

theorem readLastCommit_index {last : TrustedCommit} (h : store.readLastCommit = some last) :
    last.index = store.commits.length := by
  have hmap := hinv.indices.getLast?_map
  rw [show store.commits.getLast? = some last from h, Option.map_some] at hmap
  rw [List.getLast?_range'] at hmap
  have hne : store.commits.length ≠ 0 := by
    intro h0
    rw [ConsensusStore.readLastCommit, List.length_eq_zero_iff.mp h0] at h
    exact absurd h (by simp)
  rw [if_neg hne] at hmap
  have := Option.some_inj.mp hmap
  omega

end StoreInv

/-! ### Loading a sub-dag -/

theorem leaderBlockIdx_of_forall_ne {leader : BlockRef} :
    ∀ {blocks : List VerifiedBlock} {found : Option ℕ} {idx : ℕ}, (∀ b ∈ blocks, b.reference ≠ leader) →
      leaderBlockIdx leader blocks found idx = found
  | [], _, _, _ => rfl
  | b :: blocks, found, idx, h => by
    rw [leaderBlockIdx, if_neg (h b List.mem_cons_self),
      leaderBlockIdx_of_forall_ne fun b' hb' => h b' (List.mem_cons_of_mem b hb')]

theorem leaderBlockIdx_eq_some {leader : BlockRef} :
    ∀ {blocks : List VerifiedBlock} {found : Option ℕ} {idx : ℕ}, (∃ b ∈ blocks, b.reference = leader) →
      ∃ i b, leaderBlockIdx leader blocks found idx = some (idx + i) ∧ blocks[i]? = some b ∧ b.reference = leader
  | [], _, _, h => by simp at h
  | b :: blocks, found, idx, h => by
    rw [leaderBlockIdx]
    by_cases hrest : ∃ b' ∈ blocks, b'.reference = leader
    · obtain ⟨i, b', hidx, hb', hr⟩ := @leaderBlockIdx_eq_some leader blocks
        (if b.reference = leader then some idx else found) (idx + 1) hrest
      exact ⟨i + 1, b', by rw [hidx, Nat.add_assoc, Nat.add_comm 1 i], hb', hr⟩
    · -- the head is the leader, and no later block is
      have hb : b.reference = leader := by
        obtain ⟨b', hb', hr⟩ := h
        rcases List.mem_cons.mp hb' with rfl | hb'
        · exact hr
        · exact absurd ⟨b', hb', hr⟩ hrest
      rw [leaderBlockIdx_of_forall_ne fun b' hb' hr => hrest ⟨b', hb', hr⟩, if_pos hb]
      exact ⟨0, b, rfl, rfl, hb⟩

theorem loadCommittedSubdagFromStore_eq_ok {store : ConsensusStore} {commit : TrustedCommit}
    (hblocks : ∀ r ∈ commit.blocks, ∃ b ∈ store.blocks, b.reference = r) (hleader : commit.leader ∈ commit.blocks)
    (reputationScoresDesc : List (ℕ × ℕ)) :
    loadCommittedSubdagFromStore store commit reputationScoresDesc =
      .ok ⟨commit.leader, commit.blocks.filterMap store.readBlock, commit.timestampMs, commit.reference,
        reputationScoresDesc⟩ := by
  have hrefs := ConsensusStore.map_reference_filterMap_readBlock hblocks
  have hmem : ∃ b ∈ commit.blocks.filterMap store.readBlock, b.reference = commit.leader := by
    rw [← hrefs] at hleader
    simpa using hleader
  obtain ⟨i, b, hidx, hb, hr⟩ := @leaderBlockIdx_eq_some commit.leader _ none 0 hmem
  rw [loadCommittedSubdagFromStore, ConsensusStore.mapM_readBlock_eq_ok (fun r b hrb => by simp only [hrb]) hblocks,
    except_ok_bind]
  simp only [hidx, Nat.zero_add, hb, hr]

/-! ### Committed rounds -/

namespace DagCommitState

theorem updateCommittedRounds_eq_ok_iff {n : ℕ} :
    ∀ {refs : List BlockRef} {rounds rounds' : ℕ → ℕ},
      updateCommittedRounds n rounds refs = .ok rounds' ↔
        (∀ r ∈ refs, r.author < n) ∧ rounds' = fun a => max (rounds a) (maxRoundOf refs a)
  | [], rounds, rounds' => by
    simp only [updateCommittedRounds, List.foldlM_nil, List.not_mem_nil, IsEmpty.forall_iff, implies_true,
      maxRoundOf_nil, true_and]
    constructor
    · intro h
      rw [← except_pure_eq_ok.mp h]
      funext a
      omega
    · intro h
      rw [h]
      exact except_pure_eq_ok.mpr (funext fun a => by omega)
  | r :: refs, rounds, rounds' => by
    rw [updateCommittedRounds, List.foldlM_cons]
    by_cases hr : r.author < n
    · rw [if_pos hr, except_ok_bind, ← updateCommittedRounds, updateCommittedRounds_eq_ok_iff]
      simp only [List.forall_mem_cons, hr, true_and]
      refine and_congr_right fun _ => ?_
      -- the update at the author is the first step of the maximum
      have hfun : (fun a => max (Function.update rounds r.author (max (rounds r.author) r.round) a) (maxRoundOf refs a)) =
          fun a => max (rounds a) (maxRoundOf (r :: refs) a) := by
        funext a
        rw [maxRoundOf_cons]
        by_cases ha : a = r.author
        · subst ha
          rw [Function.update_self, if_pos rfl]
          omega
        · rw [Function.update_of_ne ha, if_neg (Ne.symm ha)]
      rw [hfun]
    · rw [if_neg hr]
      simp only [List.forall_mem_cons, hr, false_and, iff_false]
      exact fun h => nomatch h

theorem updateCommittedRounds_eq_ok {n : ℕ} {refs : List BlockRef} (h : ∀ r ∈ refs, r.author < n) (rounds : ℕ → ℕ) :
    updateCommittedRounds n rounds refs = .ok fun a => max (rounds a) (maxRoundOf refs a) :=
  Iff.mpr updateCommittedRounds_eq_ok_iff ⟨h, rfl⟩

theorem foldlM_raiseRounds {f : (ℕ → ℕ) → TrustedCommit → Except CommitPanic (ℕ → ℕ)} :
    ∀ {commits : List TrustedCommit} {rounds : ℕ → ℕ},
      (∀ c ∈ commits, ∀ rounds, f rounds c = .ok fun a => max (rounds a) (maxRoundOf c.blocks a)) →
        commits.foldlM f rounds = .ok fun a => max (rounds a) (maxRoundOf (committedRefs commits) a)
  | [], rounds, _ => except_pure_eq_ok.mpr (funext fun a => by simp)
  | c :: commits, rounds, hf => by
    rw [List.foldlM_cons, hf c List.mem_cons_self, except_ok_bind,
      foldlM_raiseRounds fun c' hc' => hf c' (List.mem_cons_of_mem c hc')]
    refine congrArg Except.ok (funext fun a => ?_)
    rw [show committedRefs (c :: commits) = c.blocks ++ committedRefs commits from rfl, maxRoundOf_append]
    omega

theorem recoverCommittedRounds_eq_ok {context : DagContext} {store : ConsensusStore}
    (hinv : StoreInv context.numAuthorities store) :
    recoverCommittedRounds context store = .ok (maxRoundOf (committedRefs store.commits)) := by
  -- from a commit info covering the first `j` commits, the loop raises the rounds by the rest
  have hfrom : ∀ j ≤ store.commits.length, ∀ {f : (ℕ → ℕ) → TrustedCommit → Except CommitPanic (ℕ → ℕ)},
      (∀ c ∈ store.commits, ∀ rounds, f rounds c = .ok fun a => max (rounds a) (maxRoundOf c.blocks a)) →
      ∀ lastCommit, store.readLastCommit = some lastCommit →
        (store.scanCommits (j + 1) lastCommit.index).foldlM f (maxRoundOf (committedRefs (store.commits.take j))) =
          .ok (maxRoundOf (committedRefs store.commits)) := by
    intro j _ f hf lastCommit hlast
    rw [hinv.readLastCommit_index hlast, hinv.scanCommits_from j,
      foldlM_raiseRounds fun c hc => hf c (List.mem_of_mem_drop hc)]
    refine congrArg Except.ok (funext fun a => ?_)
    rw [← maxRoundOf_append, ← committedRefs_append, List.take_append_drop]
  -- each step of the loop raises the rounds and loads the commit without failing
  have hstep : ∀ c ∈ store.commits, ∀ rounds : ℕ → ℕ,
      (do
        let rounds ← updateCommittedRounds context.numAuthorities rounds c.blocks
        let _ ← loadCommittedSubdagFromStore store c []
        pure rounds : Except CommitPanic (ℕ → ℕ)) = .ok fun a => max (rounds a) (maxRoundOf c.blocks a) := by
    intro c hc rounds
    have hrefs : ∀ r ∈ c.blocks, r ∈ committedRefs store.commits := fun r hr => Iff.mpr mem_committedRefs ⟨c, hc, hr⟩
    rw [updateCommittedRounds_eq_ok (fun r hr => hinv.authors r (hrefs r hr)), except_ok_bind,
      loadCommittedSubdagFromStore_eq_ok (fun r hr => hinv.commit_blocks r (hrefs r hr)) (hinv.leader_mem c hc)]
    rfl
  rw [recoverCommittedRounds]
  rcases hinfo : store.readLastCommitInfo with _ | ⟨commitRef, commitInfo⟩ <;>
    rcases hlast : store.readLastCommit with _ | lastCommit
  · have hnil : store.commits = [] := List.getLast?_eq_none_iff.mp hlast
    simp [hnil]
  · exact hfrom 0 (Nat.zero_le _) hstep lastCommit hlast
  · -- no commit, so the commit info covers none
    have hnil : store.commits = [] := List.getLast?_eq_none_iff.mp hlast
    obtain ⟨hindex, hrounds⟩ := hinv.info _ (List.mem_of_getLast? hinfo)
    simp only
    rw [hrounds, hnil, List.take_nil]
    rfl
  · obtain ⟨hindex, hrounds⟩ := hinv.info _ (List.mem_of_getLast? hinfo)
    simp only
    rw [hrounds]
    exact hfrom commitRef.index hindex hstep lastCommit hlast

/-! ### The cache rebuilt from the store -/

/-- Every cached block is a stored block under its own reference, not yet marked
committed: what `new` has cached before it marks anything. -/
def CacheFrom (store : ConsensusStore) (m : RecentBlocks) : Prop :=
  ∀ r info, m.lookup r = some info → info.block.reference = r ∧ info.block ∈ store.blocks ∧ info.committed = false

theorem cacheFrom_empty (store : ConsensusStore) : CacheFrom store ∅ := fun r info h => by
  simp at h

@[simp] theorem updateBlockMetadata_recentBlocks (s : DagCommitState) (b : VerifiedBlock) :
    (s.updateBlockMetadata b).recentBlocks = s.recentBlocks.insert b.reference ⟨b, false⟩ := rfl

theorem foldl_updateBlockMetadata {store : ConsensusStore} :
    ∀ {bs : List VerifiedBlock} {s : DagCommitState}, (∀ b ∈ bs, b ∈ store.blocks) → CacheFrom store s.recentBlocks →
      let s' := bs.foldl updateBlockMetadata s
      s' = { s with recentBlocks := s'.recentBlocks } ∧ CacheFrom store s'.recentBlocks ∧
        (∀ r, (s.recentBlocks.lookup r).isSome → (s'.recentBlocks.lookup r).isSome) ∧
        ∀ b ∈ bs, (s'.recentBlocks.lookup b.reference).isSome
  | [], s, _, hcache => ⟨rfl, hcache, fun _ h => h, fun _ hb => absurd hb List.not_mem_nil⟩
  | b :: bs, s, hbs, hcache => by
    -- caching `b` first keeps the cache made of stored blocks
    have hcache' : CacheFrom store (s.updateBlockMetadata b).recentBlocks := by
      intro r info h
      rw [updateBlockMetadata_recentBlocks] at h
      by_cases hr : r = b.reference
      · subst hr
        rw [AList.lookup_insert, Option.some_inj] at h
        subst h
        exact ⟨rfl, hbs b List.mem_cons_self, rfl⟩
      · rw [AList.lookup_insert_ne hr] at h
        exact hcache r info h
    obtain ⟨hfields, hfrom, hkeep, hcached⟩ :=
      foldl_updateBlockMetadata (s := s.updateBlockMetadata b) (fun b' hb' => hbs b' (List.mem_cons_of_mem b hb')) hcache'
    have hkeep' : ∀ r, (s.recentBlocks.lookup r).isSome → ((s.updateBlockMetadata b).recentBlocks.lookup r).isSome := by
      intro r h
      rw [updateBlockMetadata_recentBlocks]
      by_cases hr : r = b.reference
      · rw [hr, AList.lookup_insert]
        rfl
      · rwa [AList.lookup_insert_ne hr]
    refine ⟨hfields, hfrom, fun r h => hkeep r (hkeep' r h), ?_⟩
    intro b' hb'
    rcases List.mem_cons.mp hb' with rfl | hb'
    · exact hkeep _ (by rw [updateBlockMetadata_recentBlocks, AList.lookup_insert]; rfl)
    · exact hcached b' hb'

theorem mem_scanBlocksByAuthor {store : ConsensusStore} {author startRound : ℕ} {b : VerifiedBlock} :
    b ∈ store.scanBlocksByAuthor author startRound ↔ b ∈ store.blocks ∧ b.author = author ∧ startRound ≤ b.round := by
  simp [ConsensusStore.scanBlocksByAuthor]

theorem recoverAuthorityBlocks_eq_ok (s : DagCommitState) (i : ℕ) :
    ∃ evictionRound, s.recoverAuthorityBlocks i = .ok ((s.store.scanBlocksByAuthor i (evictionRound + 1)).foldl updateBlockMetadata s) ∧
      (s.gcEnabled = true → evictionRound ≤ s.gcRound) := by
  rw [recoverAuthorityBlocks]
  cases hgc : s.gcEnabled
  · exact ⟨_, rfl, fun h => nomatch h⟩
  · obtain ⟨lastBlock, hlast⟩ := Option.isSome_iff_exists.mp
      (ConsensusStore.scanLastBlocksByAuthor_one_isSome i : (s.store.scanLastBlocksByAuthor i 1 none).isSome)
    simp only [if_true, hlast]
    exact ⟨_, rfl, fun _ => Nat.min_le_left _ _⟩

theorem recoverAuthorities_eq_ok {store : ConsensusStore} (s : DagCommitState) (hstore : s.store = store)
    (hcache : CacheFrom store s.recentBlocks) :
    ∃ t, (List.range s.context.numAuthorities).foldlM (fun state i => state.recoverAuthorityBlocks i) s = .ok t ∧
      t = { s with recentBlocks := t.recentBlocks } ∧ CacheFrom store t.recentBlocks ∧
      ∀ b ∈ store.blocks, b.author < s.context.numAuthorities → s.gcEnabled = true → s.gcRound < b.round →
        (t.recentBlocks.lookup b.reference).isSome := by
  obtain ⟨t, ht, hfields, hfrom, hcached⟩ : ∃ t, (List.range s.context.numAuthorities).foldlM
      (fun state i => state.recoverAuthorityBlocks i) s = .ok t ∧ _ :=
    foldlM_except_exists_ok (P := fun done t => t = { s with recentBlocks := t.recentBlocks } ∧
      CacheFrom store t.recentBlocks ∧ ∀ b ∈ store.blocks, b.author ∈ done → s.gcEnabled = true → s.gcRound < b.round →
        (t.recentBlocks.lookup b.reference).isSome)
    ⟨rfl, hcache, fun _ _ h => absurd h List.not_mem_nil⟩ (by
      rintro t i done - ⟨hfields, hfrom, hcached⟩
      obtain ⟨ev, hev, hle⟩ := recoverAuthorityBlocks_eq_ok t i
      have htstore : t.store = store := by rw [hfields]; exact hstore
      obtain ⟨hfields', hfrom', hkeep, hnew⟩ := @foldl_updateBlockMetadata store
        (t.store.scanBlocksByAuthor i (ev + 1)) t (fun b hb => htstore ▸ (Iff.mp mem_scanBlocksByAuthor hb).1) hfrom
      refine ⟨_, hev, ?_, hfrom', ?_⟩
      · rw [hfields', hfields]
      · intro b hb hauthor hgc habove
        rcases List.mem_append.mp hauthor with hdone | hi
        · exact hkeep _ (hcached b hb hdone hgc habove)
        · -- `b` is of this authority and above its eviction round
          have hsame : t.gcEnabled = s.gcEnabled ∧ t.gcRound = s.gcRound := by rw [hfields]; exact ⟨rfl, rfl⟩
          have hev := hle (hsame.1.trans hgc)
          refine hnew b (Iff.mpr mem_scanBlocksByAuthor ⟨htstore ▸ hb, List.mem_singleton.mp hi, ?_⟩)
          omega)
  exact ⟨t, ht, hfields, hfrom, fun b hb hauthor => hcached b hb (by simpa using hauthor)⟩

/-! ### Marking the committed blocks -/

/-- A cache entry, marked committed if its reference is one of `refs`. -/
def markCommitted (refs : List BlockRef) (r : BlockRef) (info : BlockInfo) : BlockInfo :=
  if r ∈ refs then { info with committed := true } else info

theorem markCommitted_nil (r : BlockRef) (info : BlockInfo) : markCommitted [] r info = info := rfl

theorem markCommitted_append (refs refs' : List BlockRef) (r : BlockRef) (info : BlockInfo) :
    markCommitted refs r (markCommitted refs' r info) = markCommitted (refs ++ refs') r info := by
  by_cases h : r ∈ refs <;> by_cases h' : r ∈ refs' <;> simp [markCommitted, h, h']

/-- The references of the commits' blocks above the GC round. -/
def committedAbove (gcRound : ℕ) (commits : List TrustedCommit) : List BlockRef :=
  (committedRefs commits).filter (gcRound < ·.round)

theorem setCommitted_of_lookup {s : DagCommitState} {r : BlockRef} {info : BlockInfo}
    (h : s.recentBlocks.lookup r = some info) (hfresh : info.committed = false) :
    s.setCommitted r = .ok ({ s with recentBlocks := s.recentBlocks.insert r { info with committed := true } }, true) := by
  rw [setCommitted, h]
  simp [hfresh]

theorem setCommittedOrPanic_of_lookup {s : DagCommitState} {panic : BlockRef → CommitPanic} {r : BlockRef}
    {info : BlockInfo} (h : s.recentBlocks.lookup r = some info) (hfresh : info.committed = false) :
    s.setCommittedOrPanic panic r = .ok { s with recentBlocks := s.recentBlocks.insert r { info with committed := true } } := by
  rw [setCommittedOrPanic, setCommitted_of_lookup h hfresh]
  rfl

theorem foldlM_markCommitted {f : DagCommitState → BlockRef → Except CommitPanic DagCommitState}
    (hf : ∀ s r info, s.recentBlocks.lookup r = some info → info.committed = false →
      f s r = .ok { s with recentBlocks := s.recentBlocks.insert r { info with committed := true } }) :
    ∀ {refs : List BlockRef} {s : DagCommitState}, refs.Nodup →
      (∀ r ∈ refs, ∃ info, s.recentBlocks.lookup r = some info ∧ info.committed = false) →
      ∃ t, refs.foldlM f s = .ok t ∧ t = { s with recentBlocks := t.recentBlocks } ∧
        ∀ r, t.recentBlocks.lookup r = (s.recentBlocks.lookup r).map (markCommitted refs r)
  | [], s, _, _ => ⟨s, rfl, rfl, fun r => by cases s.recentBlocks.lookup r <;> rfl⟩
  | r :: refs, s, hnodup, hfresh => by
    obtain ⟨info, hinfo, hcommitted⟩ := hfresh r List.mem_cons_self
    have hr : r ∉ refs := (List.nodup_cons.mp hnodup).1
    set s₁ : DagCommitState := { s with recentBlocks := s.recentBlocks.insert r { info with committed := true } }
    -- the later references are untouched by marking `r`
    have hlookup : ∀ r', r' ≠ r → s₁.recentBlocks.lookup r' = s.recentBlocks.lookup r' := fun r' h =>
      AList.lookup_insert_ne h
    obtain ⟨t, ht, hfields, hmarks⟩ := foldlM_markCommitted hf (s := s₁) (List.nodup_cons.mp hnodup).2
      (fun r' hr' => by
        rw [hlookup r' (fun h => hr (h ▸ hr'))]
        exact hfresh r' (List.mem_cons_of_mem r hr'))
    refine ⟨t, by rw [List.foldlM_cons, hf s r info hinfo hcommitted, except_ok_bind, ht], by rw [hfields], ?_⟩
    intro r'
    rw [hmarks r']
    by_cases h : r' = r
    · subst h
      rw [AList.lookup_insert, hinfo]
      simp [markCommitted]
    · rw [hlookup r' h]
      cases s.recentBlocks.lookup r' <;> simp [markCommitted, h]

theorem committedAbove_take_eq_nil {n : ℕ} {store : ConsensusStore} (hinv : StoreInv n store) {g k : ℕ}
    {c : TrustedCommit} (hc : store.commits[k - 1]? = some c) (hk : 1 ≤ k) (hleader : c.leader.round ≤ g) :
    committedAbove g (store.commits.take k) = [] := by
  rw [committedAbove, List.filter_eq_nil_iff]
  intro r hr
  obtain ⟨c', hc', hrc'⟩ := Iff.mp mem_committedRefs hr
  -- `c'` is `c` or comes before it
  have hsplit : store.commits.take k = store.commits.take (k - 1) ++ [c] := by
    obtain ⟨j, rfl⟩ : ∃ j, k = j + 1 := ⟨k - 1, by omega⟩
    rw [Nat.add_sub_cancel] at hc ⊢
    rw [List.take_add_one, hc]
    rfl
  have hle : c'.leader.round ≤ c.leader.round := by
    rw [hsplit] at hc'
    rcases List.mem_append.mp hc' with hc' | hc'
    · have hpair := hinv.leaders_increase
      rw [← List.take_append_drop (k - 1) store.commits, List.pairwise_append] at hpair
      have hcdrop : c ∈ store.commits.drop (k - 1) := by
        rw [List.mem_iff_getElem?]
        exact ⟨0, by rw [List.getElem?_drop, Nat.add_zero, hc]⟩
      exact (hpair.2.2 c' hc' c hcdrop).le
    · rw [List.mem_singleton.mp hc']
  have := hinv.round_le_leader c' (List.mem_of_mem_take hc') r hrc'
  simp only [decide_eq_true_eq, not_lt]
  omega

theorem recoverCommitStatuses_eq_ok {n : ℕ} {store : ConsensusStore} (hinv : StoreInv n store) (g : ℕ) :
    ∀ {k : ℕ} {t : DagCommitState}, 1 ≤ k → k ≤ store.commits.length → t.store = store →
      (∀ r ∈ committedAbove g (store.commits.take k), ∃ info, t.recentBlocks.lookup r = some info ∧ info.committed = false) →
      ∃ t', recoverCommitStatuses g k t = .ok t' ∧ t' = { t with recentBlocks := t'.recentBlocks } ∧
        ∀ r, t'.recentBlocks.lookup r = (t.recentBlocks.lookup r).map (markCommitted (committedAbove g (store.commits.take k)) r) := by
  intro k
  induction k with
  | zero => intro t h; omega
  | succ j ih =>
    intro t _ hk hstore hfresh
    have hj : j < store.commits.length := by omega
    set c := store.commits[j]
    have hc : store.commits[j]? = some c := List.getElem?_eq_getElem hj
    have hscan : (t.store.scanCommits (j + 1) (j + 1)).head? = some c := by
      rw [hstore, hinv.scanCommits_at (by omega), Nat.add_sub_cancel, hc]
    have hsplit : store.commits.take (j + 1) = store.commits.take j ++ [c] := by
      rw [List.take_add_one, hc]
      rfl
    have habove : committedAbove g (store.commits.take (j + 1)) =
        committedAbove g (store.commits.take j) ++ c.blocks.filter (g < ·.round) := by
      rw [committedAbove, committedAbove, hsplit, committedRefs_append, List.filter_append]
      simp [committedRefs]
    rw [recoverCommitStatuses, hscan]
    simp only
    by_cases hstop : 0 < g ∧ c.leader.round ≤ g
    · -- a leader at or below the GC round: nothing up to it is above
      rw [if_pos hstop, committedAbove_take_eq_nil hinv (by rwa [Nat.add_sub_cancel]) (by omega) hstop.2]
      exact ⟨t, rfl, rfl, fun r => by cases t.recentBlocks.lookup r <;> rfl⟩
    · rw [if_neg hstop]
      have hnodup : (committedAbove g (store.commits.take (j + 1))).Nodup := by
        have hall := hinv.refs_nodup
        rw [← List.take_append_drop (j + 1) store.commits, committedRefs_append] at hall
        exact (List.nodup_append.mp hall).1.filter _
      rw [habove] at hnodup hfresh
      obtain ⟨t₁, ht₁, hfields₁, hmarks₁⟩ := foldlM_markCommitted (f := fun s r => s.setCommittedOrPanic .recoveredCommittedTwice r)
        (fun s r info h hf => setCommittedOrPanic_of_lookup h hf) (List.nodup_append.mp hnodup).2.1
        (fun r hr => hfresh r (List.mem_append_right _ hr))
      rw [ht₁, except_ok_bind]
      cases j with
      | zero =>
        refine ⟨t₁, rfl, hfields₁, fun r => ?_⟩
        rw [hmarks₁ r, habove]
        simp [committedAbove, committedRefs]
      | succ i =>
        -- the earlier commits' blocks are not this commit's, so still unmarked
        have hfresh₁ : ∀ r ∈ committedAbove g (store.commits.take (i + 1)),
            ∃ info, t₁.recentBlocks.lookup r = some info ∧ info.committed = false := by
          intro r hr
          obtain ⟨info, hinfo, hcommitted⟩ := hfresh r (List.mem_append_left _ hr)
          have hnot : r ∉ c.blocks.filter (g < ·.round) := fun h' =>
            (List.nodup_append.mp hnodup).2.2 r hr r h' rfl
          refine ⟨info, ?_, hcommitted⟩
          rw [hmarks₁ r, hinfo]
          simp [markCommitted, hnot]
        obtain ⟨t', ht', hfields', hmarks'⟩ := ih (by omega) (by omega) (by rw [hfields₁]; exact hstore) hfresh₁
        refine ⟨t', ht', by rw [hfields', hfields₁], fun r => ?_⟩
        rw [hmarks' r, hmarks₁ r, Option.map_map, habove]
        cases t.recentBlocks.lookup r with
        | none => rfl
        | some info => exact congrArg some (markCommitted_append _ _ r info)

/-! ### `new` -/

/-- What `new` gives back from a store: its last commit and the committed rounds of
all its commits, empty buffers, stored blocks in the cache and, with GC on, every
stored block above the GC round cached, marked committed exactly when a commit holds
it. -/
structure RecoveredFrom (context : DagContext) (store : ConsensusStore) (s : DagCommitState) : Prop where
  context_eq : s.context = context
  store_eq : s.store = store
  lastCommit_eq : s.lastCommit = store.readLastCommit
  rounds_eq : s.lastCommittedRounds = maxRoundOf (committedRefs store.commits)
  blocksToWrite_eq : s.blocksToWrite = []
  commitsToWrite_eq : s.commitsToWrite = []
  commitInfoToWrite_eq : s.commitInfoToWrite = []
  cached : ∀ r info, s.recentBlocks.lookup r = some info → info.block.reference = r ∧ info.block ∈ store.blocks
  committed : ∀ r info, s.recentBlocks.lookup r = some info →
    (info.committed = true ↔ s.gcEnabled = true ∧ s.gcRound < r.round ∧ r ∈ committedRefs store.commits)
  loaded : s.gcEnabled = true → ∀ b ∈ store.blocks, s.gcRound < b.round → (s.recentBlocks.lookup b.reference).isSome

theorem new_eq_ok {context : DagContext} {store : ConsensusStore} (hinv : StoreInv context.numAuthorities store) :
    ∃ s, DagCommitState.new context store = .ok s ∧ RecoveredFrom context store s := by
  rw [new, recoverCommittedRounds_eq_ok hinv, except_ok_bind]
  set s₀ : DagCommitState :=
    ⟨context, ∅, store.readLastCommit, maxRoundOf (committedRefs store.commits), [], [], [], store⟩ with hs₀
  obtain ⟨t, ht, hfields, hfrom, hloaded⟩ := recoverAuthorities_eq_ok s₀ rfl (cacheFrom_empty store)
  change List.foldlM _ s₀ (List.range context.numAuthorities) = _ at ht
  dsimp only
  rw [ht, except_ok_bind]
  have hgc : t.gcEnabled = s₀.gcEnabled ∧ t.gcRound = s₀.gcRound := by rw [hfields]; exact ⟨rfl, rfl⟩
  -- the cache before marking, and without GC after it
  have hunmarked : t.gcEnabled = false ∨ store.commits = [] → RecoveredFrom context store t := by
    intro hnone
    rw [hfields]
    refine ⟨rfl, rfl, rfl, rfl, rfl, rfl, rfl, fun r info h => ⟨(hfrom r info h).1, (hfrom r info h).2.1⟩,
      fun r info h => ?_, fun hgc' b hb habove => hloaded b hb (hinv.block_authors b hb) (hgc.1 ▸ hgc') (hgc.2 ▸ habove)⟩
    change info.committed = true ↔ s₀.gcEnabled = true ∧ s₀.gcRound < r.round ∧ _
    rw [(hfrom r info h).2.2]
    rcases hnone with hoff | hnil
    · simp [← hgc.1, hoff]
    · simp [hnil]
  cases hon : t.gcEnabled
  · exact ⟨t, rfl, hunmarked (.inl hon)⟩
  · rw [if_pos rfl]
    rcases hlast : store.readLastCommit with _ | lastCommit
    · exact ⟨t, rfl, hunmarked (.inr (List.getLast?_eq_none_iff.mp hlast))⟩
    · have hindex := hinv.readLastCommit_index hlast
      have hpos : 1 ≤ store.commits.length := by
        have : store.commits ≠ [] := fun h => by simp [ConsensusStore.readLastCommit, h] at hlast
        exact List.length_pos_iff.mpr this
      -- every committed block above the GC round is cached and not yet marked
      have hfresh : ∀ r ∈ committedAbove t.gcRound (store.commits.take store.commits.length),
          ∃ info, t.recentBlocks.lookup r = some info ∧ info.committed = false := by
        intro r hr
        rw [List.take_length, committedAbove, List.mem_filter, decide_eq_true_eq] at hr
        obtain ⟨b, hb, rfl⟩ := hinv.commit_blocks r hr.1
        obtain ⟨info, hinfo⟩ := Option.isSome_iff_exists.mp
          (hloaded b hb (hinv.block_authors b hb) (hgc.1 ▸ hon) (hgc.2 ▸ hr.2))
        exact ⟨info, hinfo, (hfrom _ info hinfo).2.2⟩
      obtain ⟨t', ht', hfields', hmarks⟩ := recoverCommitStatuses_eq_ok hinv t.gcRound hpos le_rfl
        (by rw [hfields]) hfresh
      dsimp only
      rw [hindex, ht']
      have hsame : t'.gcEnabled = true ∧ t'.gcRound = t.gcRound := by rw [hfields']; exact ⟨hon, rfl⟩
      refine ⟨t', rfl, ?_⟩
      rw [List.take_length] at hmarks
      refine ⟨by rw [hfields', hfields], by rw [hfields', hfields], by rw [hfields', hfields],
        by rw [hfields', hfields], by rw [hfields', hfields], by rw [hfields', hfields], by rw [hfields', hfields],
        fun r info h => ?_, fun r info h => ?_, fun _ b hb habove => ?_⟩
      · rw [hmarks r] at h
        obtain ⟨info₀, h₀, rfl⟩ := Option.map_eq_some_iff.mp h
        obtain ⟨href, hmem, -⟩ := hfrom r info₀ h₀
        refine ⟨?_, ?_⟩ <;> unfold markCommitted <;> split <;> assumption
      · rw [hmarks r] at h
        obtain ⟨info₀, h₀, rfl⟩ := Option.map_eq_some_iff.mp h
        have hunset := (hfrom r info₀ h₀).2.2
        have habove : r ∈ committedAbove t.gcRound store.commits ↔
            t.gcRound < r.round ∧ r ∈ committedRefs store.commits := by
          rw [committedAbove, List.mem_filter, decide_eq_true_eq, and_comm]
        rw [hsame.1, hsame.2, ← habove]
        by_cases hr : r ∈ committedAbove t.gcRound store.commits
        · simp [markCommitted, hr]
        · simp [markCommitted, hr, hunset]
      · rw [hmarks, Option.isSome_map]
        exact hloaded b hb (hinv.block_authors b hb) (hgc.1 ▸ hon) (hgc.2 ▸ hsame.2 ▸ habove)

end DagCommitState

end Iota.Consensus
