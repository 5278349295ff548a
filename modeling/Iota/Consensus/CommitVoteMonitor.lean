import Iota.Consensus.Committee
import Iota.Consensus.Commit

/-! The commit vote monitor (`consensus/core/src/commit_vote_monitor.rs`): from the
commit votes of the blocks it observes it keeps the highest commit index each
authority voted for, and `quorum_commit_index` sorts the `(index, stake)` pairs in
descending order and returns the index at which the running stake first reaches the
quorum threshold.  A vote for `S` is a vote for every index below it, so that index
is the highest one a quorum has voted for. -/

namespace Iota.Consensus

open Iota.Lib.Weight

/-- The fields of a `VerifiedBlock` the monitor reads. -/
structure VotingBlock where
  author : ℕ
  commitVotes : List CommitRef
  deriving DecidableEq, Repr

structure CommitVoteMonitor where
  highestVotedCommits : List ℕ
  deriving DecidableEq, Repr

namespace CommitVoteMonitor

def new (c : Committee) : CommitVoteMonitor := ⟨List.replicate c.size 0⟩

/-- One vote of `author`: kept when above its highest so far.  The source indexes
the vector and panics out of range; a verified block's author is in range, and
`List.set` leaves the vector alone otherwise. -/
def recordVote (author : ℕ) (highest : List ℕ) (vote : CommitRef) : List ℕ :=
  if highest.getD author 0 < vote.index then highest.set author vote.index else highest

def observeBlock (m : CommitVoteMonitor) (block : VotingBlock) : CommitVoteMonitor :=
  ⟨block.commitVotes.foldl (recordVote block.author) m.highestVotedCommits⟩

def observeBlocks (m : CommitVoteMonitor) (blocks : List VotingBlock) : CommitVoteMonitor :=
  blocks.foldl observeBlock m

/-- `a.cmp(b).reverse()` on `(commit_index, stake)` pairs: descending, by index
then by stake. -/
def descending (a b : ℕ × ℕ) : Bool := b.1 < a.1 || (b.1 = a.1 && b.2 ≤ a.2)

/-- The loop of `quorum_commit_index` over the sorted pairs, from the stake
`total` counted so far. -/
def firstQuorumIndex (q : ℕ) : ℕ → List (ℕ × ℕ) → ℕ
  | _, [] => GENESIS_COMMIT_INDEX
  | total, (index, stake) :: rest =>
    if q ≤ total + stake then index else firstQuorumIndex q (total + stake) rest

def quorumCommitIndex (m : CommitVoteMonitor) (c : Committee) : ℕ :=
  firstQuorumIndex c.quorumThreshold 0
    ((m.highestVotedCommits.zip (c.authorities.map Authority.stake)).mergeSort descending)

/-! ### The highest vote of each authority -/

theorem length_recordVote (author : ℕ) (highest : List ℕ) (vote : CommitRef) :
    (recordVote author highest vote).length = highest.length := by
  unfold recordVote
  split_ifs <;> simp

theorem getD_recordVote (author a : ℕ) (highest : List ℕ) (vote : CommitRef) (ha : a < highest.length) :
    (recordVote author highest vote).getD a 0 =
      if a = author then max (highest.getD a 0) vote.index else highest.getD a 0 := by
  unfold recordVote
  by_cases hauthor : a = author
  · subst hauthor
    rw [if_pos rfl]
    split_ifs with hlt
    · rw [List.getD_eq_getElem?_getD, List.getElem?_set_self ha, Option.getD_some, Nat.max_eq_right hlt.le]
    · rw [Nat.max_eq_left (not_lt.mp hlt)]
  · rw [if_neg hauthor]
    split_ifs
    · rw [List.getD_eq_getElem?_getD, List.getD_eq_getElem?_getD, List.getElem?_set_ne (Ne.symm hauthor)]
    · rfl

theorem getD_foldl_recordVote (author a : ℕ) (votes : List CommitRef) :
    ∀ (highest : List ℕ), a < highest.length →
      (votes.foldl (recordVote author) highest).getD a 0 =
        if a = author then max (highest.getD a 0) ((votes.map (·.index)).foldr max 0) else highest.getD a 0 := by
  induction votes with
  | nil => intro highest _; split_ifs <;> simp
  | cons vote votes ih =>
    intro highest ha
    rw [List.foldl_cons, ih _ (by rw [length_recordVote]; exact ha), getD_recordVote author a highest vote ha]
    split_ifs
    · simp [Nat.max_assoc]
    · rfl

theorem length_observeBlocks (m : CommitVoteMonitor) (blocks : List VotingBlock) :
    (m.observeBlocks blocks).highestVotedCommits.length = m.highestVotedCommits.length := by
  induction blocks generalizing m with
  | nil => rfl
  | cons block blocks ih =>
    rw [observeBlocks, List.foldl_cons, ← observeBlocks, ih, observeBlock]
    clear ih
    generalize m.highestVotedCommits = highest
    induction block.commitVotes generalizing highest with
    | nil => rfl
    | cons vote votes ih => rw [List.foldl_cons, ih, length_recordVote]

/-- The vote indices of the blocks of `a`. -/
def votesOf (a : ℕ) (blocks : List VotingBlock) : List ℕ :=
  (blocks.filter (·.author = a)).flatMap fun block => block.commitVotes.map (·.index)

theorem foldr_max_append (l₁ l₂ : List ℕ) :
    (l₁ ++ l₂).foldr max 0 = max (l₁.foldr max 0) (l₂.foldr max 0) := by
  induction l₁ with
  | nil => simp
  | cons x l₁ ih => rw [List.cons_append, List.foldr_cons, ih, List.foldr_cons, Nat.max_assoc]

theorem getD_observeBlocks (a : ℕ) (blocks : List VotingBlock) :
    ∀ (m : CommitVoteMonitor), a < m.highestVotedCommits.length →
      (m.observeBlocks blocks).highestVotedCommits.getD a 0 =
        max (m.highestVotedCommits.getD a 0) ((votesOf a blocks).foldr max 0) := by
  induction blocks with
  | nil => intro m _; simp [observeBlocks, votesOf]
  | cons block blocks ih =>
    intro m ha
    have hlen : a < (m.observeBlock block).highestVotedCommits.length := by
      simpa [observeBlocks] using length_observeBlocks m [block] ▸ ha
    rw [observeBlocks, List.foldl_cons, ← observeBlocks, ih _ hlen, observeBlock,
      getD_foldl_recordVote _ _ _ _ ha]
    -- the new block contributes its votes only when `a` wrote it
    by_cases hauthor : a = block.author
    · subst hauthor
      rw [if_pos rfl]
      simp only [votesOf, List.filter_cons, decide_true, if_true, List.flatMap_cons, foldr_max_append, Nat.max_assoc]
    · have hne : ¬ block.author = a := Ne.symm hauthor
      simp [votesOf, hauthor, hne]

/-! ### The quorum index of sorted pairs -/

/-- The stake of the pairs with an index of at least `S`. -/
def stakeFrom (S : ℕ) (pairs : List (ℕ × ℕ)) : ℕ := ((pairs.filter (S ≤ ·.1)).map (·.2)).sum

theorem stakeFrom_cons_of_le {S index stake : ℕ} (h : S ≤ index) (rest : List (ℕ × ℕ)) :
    stakeFrom S ((index, stake) :: rest) = stake + stakeFrom S rest := by
  simp [stakeFrom, h]

theorem stakeFrom_eq_zero {S : ℕ} {pairs : List (ℕ × ℕ)} (h : ∀ p ∈ pairs, p.1 < S) : stakeFrom S pairs = 0 := by
  rw [stakeFrom, List.filter_eq_nil_iff.mpr fun p hp => by simpa using h p hp]
  rfl

theorem stakeFrom_perm (S : ℕ) {l₁ l₂ : List (ℕ × ℕ)} (h : l₁.Perm l₂) : stakeFrom S l₁ = stakeFrom S l₂ :=
  ((h.filter _).map _).sum_eq

theorem firstQuorumIndex_mem (q : ℕ) :
    ∀ (total : ℕ) (pairs : List (ℕ × ℕ)),
      firstQuorumIndex q total pairs = GENESIS_COMMIT_INDEX ∨ ∃ p ∈ pairs, firstQuorumIndex q total pairs = p.1
  | _, [] => .inl rfl
  | total, (index, stake) :: rest => by
    rw [firstQuorumIndex]
    split_ifs
    · exact .inr ⟨(index, stake), List.mem_cons_self, rfl⟩
    · rcases firstQuorumIndex_mem q (total + stake) rest with h | ⟨p, hp, h⟩
      · exact .inl h
      · exact .inr ⟨p, List.mem_cons_of_mem _ hp, h⟩

section Sorted

variable {q : ℕ}

/-- Pairs by non-increasing index, as the sort leaves them. -/
def Descending (pairs : List (ℕ × ℕ)) : Prop := pairs.Pairwise fun a b => b.1 ≤ a.1

theorem firstQuorumIndex_le {index stake total : ℕ} {rest : List (ℕ × ℕ)}
    (hsorted : Descending ((index, stake) :: rest)) : firstQuorumIndex q total rest ≤ index := by
  rcases firstQuorumIndex_mem q total rest with h | ⟨p, hp, h⟩
  · rw [h, GENESIS_COMMIT_INDEX]
    exact Nat.zero_le _
  · rw [h]
    exact (List.pairwise_cons.mp hsorted).1 p hp

theorem le_stakeFrom_of_le :
    ∀ {total : ℕ} {pairs : List (ℕ × ℕ)}, Descending pairs → q ≤ total + (pairs.map (·.2)).sum →
      ∀ {S : ℕ}, S ≤ firstQuorumIndex q total pairs → q ≤ total + stakeFrom S pairs
  | total, [], _, hreach, S, _ => by simpa [stakeFrom] using hreach
  | total, (index, stake) :: rest, hsorted, hreach, S, hS => by
    rw [firstQuorumIndex] at hS
    split_ifs at hS with hq
    · -- the quorum is reached at this pair, whose index is at least `S`
      rw [stakeFrom_cons_of_le hS]
      omega
    · have hle : firstQuorumIndex q (total + stake) rest ≤ index := firstQuorumIndex_le hsorted
      have hreach' : q ≤ total + stake + (rest.map (·.2)).sum := by
        simp only [List.map_cons, List.sum_cons] at hreach
        omega
      have ih := le_stakeFrom_of_le (List.pairwise_cons.mp hsorted).2 hreach' hS
      rw [stakeFrom_cons_of_le (hS.trans hle)]
      omega

theorem stakeFrom_lt_of_lt :
    ∀ {total : ℕ} {pairs : List (ℕ × ℕ)}, Descending pairs → total < q →
      ∀ {S : ℕ}, firstQuorumIndex q total pairs < S → total + stakeFrom S pairs < q
  | total, [], _, htotal, S, _ => by simpa [stakeFrom] using htotal
  | total, (index, stake) :: rest, hsorted, htotal, S, hS => by
    by_cases hindex : S ≤ index
    · -- this pair counts, so the quorum was not reached at it
      rw [firstQuorumIndex] at hS
      split_ifs at hS with hq
      · omega
      · have ih := stakeFrom_lt_of_lt (List.pairwise_cons.mp hsorted).2 (by omega) hS
        rw [stakeFrom_cons_of_le hindex]
        omega
    · -- no pair from here on has an index of `S`
      rw [stakeFrom_eq_zero]
      · omega
      · intro p hp
        rcases List.mem_cons.mp hp with rfl | hp
        · omega
        · exact lt_of_le_of_lt ((List.pairwise_cons.mp hsorted).1 p hp) (by omega)

theorem isGreatest_firstQuorumIndex {pairs : List (ℕ × ℕ)} (hsorted : Descending pairs) (hq : 0 < q)
    (hreach : q ≤ (pairs.map (·.2)).sum) :
    IsGreatest {S | q ≤ stakeFrom S pairs} (firstQuorumIndex q 0 pairs) := by
  refine ⟨?_, fun S hS => ?_⟩
  · have := le_stakeFrom_of_le hsorted (by simpa using hreach) (le_refl (firstQuorumIndex q 0 pairs))
    simpa using this
  · by_contra hlt
    have hlt' := stakeFrom_lt_of_lt hsorted hq (not_le.mp hlt)
    have hS' : q ≤ stakeFrom S pairs := hS
    omega

end Sorted

theorem descending_mergeSort (pairs : List (ℕ × ℕ)) : Descending (pairs.mergeSort descending) := by
  have hsorted := @List.pairwise_mergeSort _ descending
    (fun a b c hab hbc => by simp only [descending, Bool.or_eq_true, decide_eq_true_eq, Bool.and_eq_true] at *; omega)
    (fun a b => by simp only [descending, Bool.or_eq_true, decide_eq_true_eq, Bool.and_eq_true]; omega) pairs
  refine hsorted.imp fun {a b} h => ?_
  simp only [descending, Bool.or_eq_true, decide_eq_true_eq, Bool.and_eq_true] at h
  omega

/-! ### The pairs of the committee -/

theorem stakeFrom_zip (S : ℕ) :
    ∀ (highest stakes : List ℕ), highest.length = stakes.length →
      stakeFrom S (highest.zip stakes) =
        ∑ i ∈ Finset.range stakes.length, if S ≤ highest.getD i 0 then stakes.getD i 0 else 0
  | [], [], _ => by simp [stakeFrom]
  | h :: highest, s :: stakes, hlen => by
    have ih := stakeFrom_zip S highest stakes (by simpa using hlen)
    rw [List.zip_cons_cons, List.length_cons, Finset.sum_range_succ']
    simp only [List.getD_cons_succ, List.getD_cons_zero, ← ih]
    by_cases hS : S ≤ h
    · rw [stakeFrom_cons_of_le hS, if_pos hS, Nat.add_comm]
    · rw [if_neg hS, stakeFrom, List.filter_cons, if_neg (by simpa using hS)]
      rfl

theorem stakeFrom_zip_committee (c : Committee) (S : ℕ) {highest : List ℕ} (hlen : highest.length = c.size) :
    stakeFrom S (highest.zip (c.authorities.map Authority.stake)) =
      weight c.stake ((Finset.range c.size).filter fun a => S ≤ highest.getD a 0) := by
  rw [stakeFrom_zip S highest _ (by simpa [Committee.size] using hlen), weight, Finset.sum_filter]
  simp only [List.length_map]
  refine Finset.sum_congr rfl fun i _ => ?_
  simp only [Committee.stake, List.getD_eq_getElem?_getD, List.getElem?_map]
  cases c.authorities[i]? <;> rfl

/-- Along any sequence of observed blocks, each authority's entry is the highest
commit index its blocks voted for (0 when none), and `quorum_commit_index` is the
highest index `S` such that the authorities whose entry is at least `S` reach the
quorum threshold. -/
theorem observeBlocks_quorumCommitIndex (c : Committee) (blocks : List VotingBlock) :
    let m := (new c).observeBlocks blocks
    (∀ a < c.size, m.highestVotedCommits.getD a 0 = (votesOf a blocks).foldr max 0) ∧
    IsGreatest {S | c.quorumThreshold ≤
        weight c.stake ((Finset.range c.size).filter fun a => S ≤ m.highestVotedCommits.getD a 0)}
      (m.quorumCommitIndex c) := by
  intro m
  have hlen : m.highestVotedCommits.length = c.size := by
    simp [m, length_observeBlocks, new]
  refine ⟨fun a ha => ?_, ?_⟩
  · rw [getD_observeBlocks a blocks (new c) (by simpa [new] using ha)]
    simp [new, List.getD_eq_getElem?_getD, ha]
  · -- the sort permutes the pairs, and the loop over them finds the highest quorum index
    unfold quorumCommitIndex
    set pairs := m.highestVotedCommits.zip (c.authorities.map Authority.stake)
    have hperm : (pairs.mergeSort descending).Perm pairs := List.mergeSort_perm _ _
    have hset : ∀ S, stakeFrom S (pairs.mergeSort descending) =
        weight c.stake ((Finset.range c.size).filter fun a => S ≤ m.highestVotedCommits.getD a 0) :=
      fun S => (stakeFrom_perm S hperm).trans (stakeFrom_zip_committee c S hlen)
    have hreach : c.quorumThreshold ≤ ((pairs.mergeSort descending).map (·.2)).sum := by
      have hall : stakeFrom 0 (pairs.mergeSort descending) = ((pairs.mergeSort descending).map (·.2)).sum := by
        simp [stakeFrom]
      have htotal : weight c.stake ((Finset.range c.size).filter fun a => 0 ≤ m.highestVotedCommits.getD a 0) =
          c.totalStake := by
        rw [Finset.filter_true_of_mem fun _ _ => Nat.zero_le _, c.totalStake_eq_sum_range]
        rfl
      rw [← hall, hset 0, htotal]
      exact c.quorumThreshold_le_totalStake
    have hq : 0 < c.quorumThreshold := Nat.succ_pos _
    simpa only [hset] using isGreatest_firstQuorumIndex (descending_mergeSort pairs) hq hreach

end CommitVoteMonitor

end Iota.Consensus
