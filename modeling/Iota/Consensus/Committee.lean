import Mathlib
import Iota.Lib.Weight

/-! The consensus committee (`consensus_config::Committee`) and the stake
aggregator of `consensus/core/src/stake_aggregator.rs`. -/

namespace Iota.Consensus

open Iota.Lib.Weight

-- `AuthorityIndex` (a `u32` index), `Stake` (a `u64`) and `Round` are natural
-- numbers throughout; no modelled computation comes near their bounds.
structure Authority where
  stake : ℕ
  deriving DecidableEq, Repr

/-- `Committee::new` asserts that the committee is non-empty and that its total
stake is not zero. -/
structure Committee where
  authorities : List Authority
  nonempty : authorities ≠ []
  total_ne_zero : (authorities.map Authority.stake).sum ≠ 0

namespace Committee

theorem four_equal_ne_nil : [(⟨1⟩ : Authority), ⟨1⟩, ⟨1⟩, ⟨1⟩] ≠ [] := List.cons_ne_nil _ _

theorem four_equal_total_ne_zero : ([(⟨1⟩ : Authority), ⟨1⟩, ⟨1⟩, ⟨1⟩].map Authority.stake).sum ≠ 0 := by
  decide

variable (c : Committee)

def size : ℕ := c.authorities.length

def totalStake : ℕ := (c.authorities.map Authority.stake).sum

def quorumThreshold : ℕ := 2 * c.totalStake / 3 + 1

def validityThreshold : ℕ := (c.totalStake + 2) / 3

-- The source indexes `authorities` and panics out of range; every index the
-- model passes here was checked by `is_valid_index` in the block verifier.
def stake (i : ℕ) : ℕ :=
  match c.authorities[i]? with
  | some a => a.stake
  | none => 0

def reachedQuorum (s : ℕ) : Bool := decide (c.quorumThreshold ≤ s)

def reachedValidity (s : ℕ) : Bool := decide (c.validityThreshold ≤ s)

def isValidIndex (i : ℕ) : Bool := decide (i < c.size)

theorem stake_eq_zero_of_le {i : ℕ} (h : c.size ≤ i) : c.stake i = 0 := by
  simp [stake, List.getElem?_eq_none (show c.authorities.length ≤ i from h)]

theorem sum_range_stake (l : List Authority) :
    ∑ i ∈ Finset.range l.length, (match l[i]? with | some a => a.stake | none => 0) =
      (l.map Authority.stake).sum := by
  induction l with
  | nil => simp
  | cons a l ih =>
    rw [List.length_cons, Finset.sum_range_succ']
    simp only [List.getElem?_cons_succ, List.getElem?_cons_zero, ih]
    simp [Nat.add_comm]

theorem totalStake_eq_sum_range : c.totalStake = ∑ i ∈ Finset.range c.size, c.stake i :=
  (sum_range_stake c.authorities).symm

theorem weight_stake_le_totalStake (s : Finset ℕ) :
    weight c.stake s ≤ c.totalStake := by
  have hsplit : weight c.stake s = weight c.stake (s.filter (· < c.size)) := by
    unfold weight
    rw [Finset.sum_filter]
    refine Finset.sum_congr rfl fun i _ => ?_
    split
    · rfl
    · rename_i hi
      exact c.stake_eq_zero_of_le (Nat.le_of_not_lt hi)
  rw [hsplit, totalStake_eq_sum_range]
  apply weight_mono
  intro i hi
  simp only [Finset.mem_filter] at hi
  exact Finset.mem_range.mpr hi.2

theorem totalStake_lt_two_mul_quorumThreshold : c.totalStake < 2 * c.quorumThreshold := by
  unfold quorumThreshold
  omega

theorem totalStake_add_validityThreshold_le :
    c.totalStake + c.validityThreshold ≤ 2 * c.quorumThreshold := by
  unfold quorumThreshold validityThreshold
  omega

theorem exists_mem_quorum_inter {s t b : Finset ℕ}
    (hs : c.quorumThreshold ≤ weight c.stake s) (ht : c.quorumThreshold ≤ weight c.stake t)
    (hb : weight c.stake b < c.validityThreshold) : ∃ a ∈ s ∩ t, a ∉ b := by
  refine exists_mem_inter_not_mem c.stake (c.weight_stake_le_totalStake _) hs ht ?_
  have := c.totalStake_add_validityThreshold_le
  omega

theorem quorum_inter_nonempty {s t : Finset ℕ}
    (hs : c.quorumThreshold ≤ weight c.stake s) (ht : c.quorumThreshold ≤ weight c.stake t) :
    (s ∩ t).Nonempty :=
  inter_nonempty_of_weight c.stake (c.weight_stake_le_totalStake _) hs ht
    c.totalStake_lt_two_mul_quorumThreshold

theorem validityThreshold_le_weight_inter {s t : Finset ℕ}
    (hs : c.quorumThreshold ≤ weight c.stake s) (ht : c.quorumThreshold ≤ weight c.stake t) :
    c.validityThreshold ≤ weight c.stake (s ∩ t) := by
  have hinter := weight_union_add_inter c.stake s t
  have hunion := c.weight_stake_le_totalStake (s ∪ t)
  have hbound := c.totalStake_add_validityThreshold_le
  omega

theorem quorumThreshold_le_totalStake : c.quorumThreshold ≤ c.totalStake := by
  have hpos : 0 < c.totalStake := Nat.pos_of_ne_zero c.total_ne_zero
  unfold quorumThreshold
  omega

end Committee

/-- The two instances of `CommitteeThreshold`. -/
inductive CommitteeThreshold
  | quorum
  | validity
  deriving DecidableEq, Repr

def CommitteeThreshold.isThreshold : CommitteeThreshold → Committee → ℕ → Bool
  | .quorum, c, s => c.reachedQuorum s
  | .validity, c, s => c.reachedValidity s

def CommitteeThreshold.threshold : CommitteeThreshold → Committee → ℕ
  | .quorum, c => c.quorumThreshold
  | .validity, c => c.validityThreshold

@[simp] theorem CommitteeThreshold.isThreshold_iff (T : CommitteeThreshold) (c : Committee)
    (s : ℕ) : T.isThreshold c s = true ↔ T.threshold c ≤ s := by
  cases T <;> simp [isThreshold, threshold, Committee.reachedQuorum, Committee.reachedValidity]

structure StakeAggregator (T : CommitteeThreshold) where
  votes : Finset ℕ
  stake : ℕ

namespace StakeAggregator

variable {T : CommitteeThreshold}

def new : StakeAggregator T := ⟨∅, 0⟩

/-- `add` counts each authority once and reports whether the threshold is
reached; the model returns the updated aggregator with the answer. -/
def add (agg : StakeAggregator T) (vote : ℕ) (c : Committee) :
    StakeAggregator T × Bool :=
  let agg' : StakeAggregator T :=
    if vote ∈ agg.votes then agg else ⟨insert vote agg.votes, agg.stake + c.stake vote⟩
  (agg', T.isThreshold c agg'.stake)

def reachedThreshold (agg : StakeAggregator T) (c : Committee) : Bool := T.isThreshold c agg.stake

def clear (_ : StakeAggregator T) : StakeAggregator T := new

/-- The aggregator's stake is the stake of the authorities it has counted. -/
def Tallies (c : Committee) (agg : StakeAggregator T) : Prop :=
  agg.stake = weight c.stake agg.votes

theorem tallies_new (c : Committee) : (new : StakeAggregator T).Tallies c := by
  simp [Tallies, new]

theorem add_votes (agg : StakeAggregator T) (vote : ℕ) (c : Committee) :
    (agg.add vote c).1.votes = insert vote agg.votes := by
  unfold add
  split
  · simp [Finset.insert_eq_of_mem ‹_›]
  · rfl

theorem tallies_add {c : Committee} {agg : StakeAggregator T} (h : agg.Tallies c)
    (vote : ℕ) : (agg.add vote c).1.Tallies c := by
  unfold add Tallies
  split
  · exact h
  · rename_i hv
    simp only [weight_insert_of_not_mem c.stake hv]
    unfold Tallies at h
    omega

theorem add_snd {c : Committee} {agg : StakeAggregator T} (h : agg.Tallies c)
    (vote : ℕ) :
    (agg.add vote c).2 = decide (T.threshold c ≤ weight c.stake (insert vote agg.votes)) := by
  have ht := tallies_add h vote
  rw [Tallies, add_votes] at ht
  simp only [add] at ht ⊢
  rw [ht]
  exact Bool.eq_iff_iff.mpr (by simp [CommitteeThreshold.isThreshold_iff])

/-- The votes added one after another; only the aggregator is kept. -/
def addAll (agg : StakeAggregator T) (c : Committee) (votes : List ℕ) : StakeAggregator T :=
  votes.foldl (fun agg vote => (agg.add vote c).1) agg

theorem addAll_votes (agg : StakeAggregator T) (c : Committee) (votes : List ℕ) :
    (agg.addAll c votes).votes = agg.votes ∪ votes.toFinset := by
  induction votes generalizing agg with
  | nil => simp [addAll]
  | cons vote votes ih =>
    rw [addAll, List.foldl_cons, ← addAll, ih, add_votes, List.toFinset_cons]
    ext a
    simp

theorem tallies_addAll {c : Committee} {agg : StakeAggregator T} (h : agg.Tallies c)
    (votes : List ℕ) : (agg.addAll c votes).Tallies c := by
  induction votes generalizing agg with
  | nil => exact h
  | cons vote votes ih => exact ih (tallies_add h vote)

end StakeAggregator

/-- Quorum intersection and the quorum aggregator: two quorums of distinct
authorities share at least the validity threshold's stake, a quorum fits in the
total stake, and along any sequence of votes the aggregator answers `true`
exactly when the distinct authorities seen so far reach the quorum threshold. -/
theorem quorum_intersection (c : Committee) :
    (∀ s t : Finset ℕ, c.quorumThreshold ≤ weight c.stake s → c.quorumThreshold ≤ weight c.stake t →
      c.validityThreshold ≤ weight c.stake (s ∩ t)) ∧
    c.quorumThreshold ≤ c.totalStake ∧
    ∀ (votes : List ℕ) (vote : ℕ),
      (((StakeAggregator.new : StakeAggregator .quorum).addAll c votes).add vote c).2 =
        decide (c.quorumThreshold ≤ weight c.stake (insert vote votes.toFinset)) := by
  refine ⟨fun s t hs ht => c.validityThreshold_le_weight_inter hs ht, c.quorumThreshold_le_totalStake, ?_⟩
  intro votes vote
  have htallies := StakeAggregator.tallies_addAll (StakeAggregator.tallies_new c (T := .quorum)) votes
  rw [StakeAggregator.add_snd htallies, StakeAggregator.addAll_votes]
  simp [StakeAggregator.new, CommitteeThreshold.threshold]

end Iota.Consensus
