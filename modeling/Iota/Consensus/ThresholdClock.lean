import Iota.Consensus.Committee
import Iota.Consensus.Block

/-! The threshold clock (`consensus/core/src/threshold_clock.rs`): the round a node
builds on.  A block of a higher round moves the clock to that round, with its author
as the only vote counted; blocks of the current round are counted until their
authors reach the quorum threshold, which moves the clock one round on.  The time of
the last quorum and the latency metric are not modelled. -/

namespace Iota.Consensus

open Iota.Lib.Weight

structure ThresholdClock where
  aggregator : StakeAggregator .quorum
  round : ℕ

namespace ThresholdClock

variable (c : Committee)

def new (round : ℕ) : ThresholdClock := ⟨StakeAggregator.new, round⟩

def addBlock (clock : ThresholdClock) (block : BlockRef) : ThresholdClock :=
  match compare block.round clock.round with
  | .lt => clock
  -- the answer of `add` is dropped here: only the next block of this round can move the clock on
  | .gt => ⟨(clock.aggregator.clear.add block.author c).1, block.round⟩
  | .eq =>
    let (aggregator, reached) := clock.aggregator.add block.author c
    if reached then ⟨aggregator.clear, block.round + 1⟩ else ⟨aggregator, clock.round⟩

def addBlocks (clock : ThresholdClock) (blocks : List BlockRef) : ThresholdClock :=
  blocks.foldl (addBlock c) clock

/-- The authors of the blocks of round `ρ`. -/
def authorsAt (ρ : ℕ) (blocks : List BlockRef) : Finset ℕ :=
  ((blocks.filter (·.round = ρ)).map (·.author)).toFinset

theorem authorsAt_append_singleton (ρ : ℕ) (blocks : List BlockRef) (block : BlockRef) :
    authorsAt ρ (blocks ++ [block]) =
      if block.round = ρ then insert block.author (authorsAt ρ blocks) else authorsAt ρ blocks := by
  unfold authorsAt
  rw [List.filter_append, List.map_append, List.toFinset_append]
  split_ifs with hround
  · ext a
    simp [hround]
  · simp [hround]

theorem authorsAt_eq_empty {ρ : ℕ} {blocks : List BlockRef} (h : ∀ b ∈ blocks, b.round < ρ) :
    authorsAt ρ blocks = ∅ := by
  rw [authorsAt, List.toFinset_eq_empty_iff, List.map_eq_nil_iff, List.filter_eq_nil_iff]
  intro b hb
  simpa using (h b hb).ne

theorem round_le_addBlock (clock : ThresholdClock) (block : BlockRef) :
    clock.round ≤ (clock.addBlock c block).round := by
  unfold addBlock
  split
  · exact le_rfl
  · rename_i hgt
    exact (compare_gt_iff_gt.mp hgt).le
  · rename_i heq
    dsimp only
    split_ifs
    · rw [compare_eq_iff_eq.mp heq]
      exact Nat.le_succ _
    · exact le_rfl

theorem round_le_addBlocks (clock : ThresholdClock) (blocks : List BlockRef) :
    clock.round ≤ (clock.addBlocks c blocks).round := by
  induction blocks generalizing clock with
  | nil => exact le_rfl
  | cons block blocks ih =>
    rw [addBlocks, List.foldl_cons, ← addBlocks]
    exact (round_le_addBlock c clock block).trans (ih _)

theorem addBlocks_append (clock : ThresholdClock) (l₁ l₂ : List BlockRef) :
    clock.addBlocks c (l₁ ++ l₂) = (clock.addBlocks c l₁).addBlocks c l₂ :=
  List.foldl_append

theorem round_addBlocks_take_le (clock : ThresholdClock) (blocks : List BlockRef) {m n : ℕ} (hmn : m ≤ n) :
    (clock.addBlocks c (blocks.take m)).round ≤ (clock.addBlocks c (blocks.take n)).round := by
  have hsplit : blocks.take n = blocks.take m ++ (blocks.take n).drop m := by
    conv_lhs => rw [← List.take_append_drop m (blocks.take n)]
    rw [List.take_take, Nat.min_eq_left hmn]
  rw [hsplit, addBlocks_append]
  exact round_le_addBlocks c _ _

/-- What the clock keeps of the blocks it was given: its aggregator counts exactly
the authors of the current round, no block is above that round, and the counted
stake is below the quorum unless one author alone holds it, which only a jump to a
higher round leaves behind. -/
structure Inv (blocks : List BlockRef) (clock : ThresholdClock) : Prop where
  tallies : clock.aggregator.Tallies c
  bounded : ∀ b ∈ blocks, b.round ≤ clock.round
  votes : clock.aggregator.votes = authorsAt clock.round blocks
  below : clock.aggregator.stake < c.quorumThreshold ∨
    ∃ a, clock.aggregator.votes = {a} ∧ c.quorumThreshold ≤ c.stake a

theorem inv_new (round : ℕ) : Inv c [] (new round) :=
  ⟨StakeAggregator.tallies_new c, by simp, rfl, .inl (Nat.succ_pos _)⟩

theorem Inv.addBlock {blocks : List BlockRef} {clock : ThresholdClock} (h : Inv c blocks clock)
    (block : BlockRef) : Inv c (blocks ++ [block]) (clock.addBlock c block) := by
  have hvotes := StakeAggregator.add_votes clock.aggregator block.author c
  have htallies := StakeAggregator.tallies_add h.tallies block.author
  unfold ThresholdClock.addBlock
  split
  · -- a block below the clock is ignored
    rename_i hlt
    have hlt := compare_lt_iff_lt.mp hlt
    refine ⟨h.tallies, ?_, ?_, h.below⟩
    · intro b hb
      rcases List.mem_append.mp hb with hb | hb
      · exact h.bounded b hb
      · rw [List.mem_singleton.mp hb]
        exact hlt.le
    · rw [authorsAt_append_singleton, if_neg hlt.ne, h.votes]
  · -- a block above the clock: it is the only block of its round so far
    rename_i hgt
    have hgt := compare_gt_iff_gt.mp hgt
    have hnew := StakeAggregator.tallies_add (StakeAggregator.tallies_new c (T := .quorum)) block.author
    have hnewVotes : ((StakeAggregator.new : StakeAggregator .quorum).add block.author c).1.votes =
        {block.author} := by
      rw [StakeAggregator.add_votes]
      rfl
    refine ⟨hnew, ?_, ?_, ?_⟩
    · intro b hb
      rcases List.mem_append.mp hb with hb | hb
      · exact (h.bounded b hb).trans hgt.le
      · rw [List.mem_singleton.mp hb]
    · rw [StakeAggregator.clear, hnewVotes, authorsAt_append_singleton, if_pos rfl,
        authorsAt_eq_empty fun b hb => lt_of_le_of_lt (h.bounded b hb) hgt]
      rfl
    · rw [StakeAggregator.clear]
      by_cases hq : c.quorumThreshold ≤ c.stake block.author
      · exact .inr ⟨block.author, hnewVotes, hq⟩
      · left
        rw [hnew, hnewVotes, weight, Finset.sum_singleton]
        omega
  · rename_i heq
    have heq := compare_eq_iff_eq.mp heq
    dsimp only
    split_ifs with hreached
    · -- the quorum of this round is reached: the clock moves one round on
      refine ⟨StakeAggregator.tallies_new c, ?_, ?_, .inl (Nat.succ_pos _)⟩
      · dsimp only
        intro b hb
        rcases List.mem_append.mp hb with hb | hb
        · exact (h.bounded b hb).trans (by omega)
        · rw [List.mem_singleton.mp hb]
          exact Nat.le_succ _
      · dsimp only
        rw [authorsAt_eq_empty]
        · rfl
        · intro b hb
          rcases List.mem_append.mp hb with hb | hb
          · exact lt_of_le_of_lt (h.bounded b hb) (by omega)
          · rw [List.mem_singleton.mp hb]
            exact Nat.lt_succ_self _
    · -- the vote is counted and the quorum is not reached
      refine ⟨htallies, ?_, ?_, .inl ?_⟩
      · intro b hb
        rcases List.mem_append.mp hb with hb | hb
        · exact h.bounded b hb
        · rw [List.mem_singleton.mp hb, heq]
      · rw [hvotes, authorsAt_append_singleton, if_pos heq, h.votes]
      · have hnot : ¬ c.quorumThreshold ≤ weight c.stake (insert block.author clock.aggregator.votes) := by
          rw [StakeAggregator.add_snd h.tallies] at hreached
          exact fun hq => hreached (decide_eq_true hq)
        rw [htallies, hvotes]
        omega

theorem Inv.addBlocks {blocks : List BlockRef} {clock : ThresholdClock} (h : Inv c blocks clock)
    (more : List BlockRef) : Inv c (blocks ++ more) (clock.addBlocks c more) := by
  induction more generalizing blocks clock with
  | nil => simpa [ThresholdClock.addBlocks] using h
  | cons block more ih =>
    rw [ThresholdClock.addBlocks, List.foldl_cons, ← ThresholdClock.addBlocks, ← List.singleton_append,
      ← List.append_assoc]
    exact ih (h.addBlock c block)

theorem Inv.quorum_round {blocks : List BlockRef} {clock : ThresholdClock} (h : Inv c blocks clock)
    {ρ : ℕ} (hq : c.quorumThreshold ≤ weight c.stake (authorsAt ρ blocks)) :
    ρ < clock.round ∨ ρ = clock.round ∧ ∃ a, authorsAt ρ blocks = {a} ∧ c.quorumThreshold ≤ c.stake a := by
  rcases lt_trichotomy ρ clock.round with hlt | rfl | hgt
  · exact .inl hlt
  · right
    refine ⟨rfl, ?_⟩
    rw [← h.votes] at hq ⊢
    rcases h.below with hbelow | hsingle
    · rw [h.tallies] at hbelow
      omega
    · exact hsingle
  · have hpos : 0 < c.quorumThreshold := Nat.succ_pos _
    rw [authorsAt_eq_empty fun b hb => lt_of_le_of_lt (h.bounded b hb) hgt, weight_empty] at hq
    omega

/-- From any starting round and along any sequence of block references, the round
never decreases, and a round whose distinct authors reach the quorum threshold is
below the clock's round, unless it is the clock's round and its only author holds
the quorum alone. -/
theorem addBlocks_round_of_quorum (start : ℕ) (blocks : List BlockRef) :
    (∀ m n, m ≤ n →
      ((new start).addBlocks c (blocks.take m)).round ≤ ((new start).addBlocks c (blocks.take n)).round) ∧
    start ≤ ((new start).addBlocks c blocks).round ∧
    ∀ ρ, c.quorumThreshold ≤ weight c.stake (authorsAt ρ blocks) →
      ρ < ((new start).addBlocks c blocks).round ∨
        ρ = ((new start).addBlocks c blocks).round ∧
          ∃ a, authorsAt ρ blocks = {a} ∧ c.quorumThreshold ≤ c.stake a := by
  have h := (inv_new c start).addBlocks c blocks
  rw [List.nil_append] at h
  exact ⟨fun _ _ hmn => round_addBlocks_take_le c (new start) blocks hmn, round_le_addBlocks c (new start) blocks,
    fun ρ hq => h.quorum_round c hq⟩

/-- A committee in which the first authority holds the quorum alone. -/
def skewedCommittee : Committee := ⟨[⟨3⟩, ⟨1⟩], by simp, by simp⟩

/-- A jump to round 1 on a block of the authority holding the quorum leaves the
clock at round 1, although the authors of round 1 reach the quorum. -/
theorem addBlock_jump_stays_at_quorum_round :
    skewedCommittee.quorumThreshold ≤ weight skewedCommittee.stake (authorsAt 1 [⟨1, 0, 0⟩]) ∧
      ((new 0).addBlocks skewedCommittee [⟨1, 0, 0⟩]).round = 1 := by
  decide

end ThresholdClock

end Iota.Consensus
