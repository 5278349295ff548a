import Mathlib
import Iota.Consensus.Committee
import Iota.Lib.ThresholdScan
import Iota.Lib.Except

/-! The quorum rounds of `RoundProber` (`consensus/core/src/round_prober.rs`) and the
network high quorum round of `AncestorStateManager` (`ancestor.rs`).  For a peer, every
authority reports the highest round it has of that peer; the `(round, stake)` pairs are
sorted, and the low quorum round is where the stake added up from the highest round down
reaches a quorum, the high quorum round where the stake added up from the lowest does. -/

namespace Iota.Consensus

open Iota.Lib

/-- The order of `(Round, Stake)` tuples, as `sort` uses it. -/
def roundStakeLe (a b : ℕ × ℕ) : Bool := a.1 < b.1 || (a.1 = b.1 && a.2 ≤ b.2)

/-- `compute_quorum_round`; `None` where a row of the matrix has no entry for the target
(the index panics). -/
def computeQuorumRound (committee : Committee) (targetIndex : ℕ) (highestReceivedRounds : List (List ℕ)) :
    Option (ℕ × ℕ) := do
  let roundsWithStake ← (highestReceivedRounds.zip committee.authorities).mapM fun e =>
    e.1[targetIndex]?.map fun round => (round, e.2.stake)
  let sorted := roundsWithStake.mergeSort roundStakeLe
  let low := (thresholdScan committee.quorumThreshold 0 sorted.reverse).getD 0
  let high := (thresholdScan committee.quorumThreshold 0 sorted).getD 0
  pure (low, high)

/-- `calculate_network_high_quorum_round_internal`. -/
def calculateNetworkHighQuorumRoundInternal (committee : Committee) (highQuorumRoundsWithStake : List (ℕ × ℕ)) : ℕ :=
  (thresholdScan committee.quorumThreshold 0 (highQuorumRoundsWithStake.mergeSort roundStakeLe)).getD 0

/-- `calculate_network_high_received_quorum_round` (and its accepted twin): the high
quorum round of each authority, with its stake. -/
def calculateNetworkHighQuorumRound (committee : Committee) (quorumRoundPerAuthority : List (ℕ × ℕ)) : ℕ :=
  calculateNetworkHighQuorumRoundInternal committee
    ((quorumRoundPerAuthority.zip committee.authorities).map fun e => (e.1.2, e.2.stake))

/-! ### What the rounds mean -/

/-- The stake of the authorities that report at least `r` for the target. -/
def stakeReportingAtLeast (committee : Committee) (targetIndex : ℕ) (highestReceivedRounds : List (List ℕ))
    (r : ℕ) : ℕ :=
  (((highestReceivedRounds.zip committee.authorities).filter fun e => r ≤ e.1.getD targetIndex 0).map
    (·.2.stake)).sum

/-- The stake of the authorities that report at most `r` for the target. -/
def stakeReportingAtMost (committee : Committee) (targetIndex : ℕ) (highestReceivedRounds : List (List ℕ))
    (r : ℕ) : ℕ :=
  (((highestReceivedRounds.zip committee.authorities).filter fun e => e.1.getD targetIndex 0 ≤ r).map
    (·.2.stake)).sum

/-- The stake of the authorities whose high quorum round is at most `r`. -/
def stakeWithHighQuorumRoundAtMost (committee : Committee) (quorumRoundPerAuthority : List (ℕ × ℕ)) (r : ℕ) : ℕ :=
  (((quorumRoundPerAuthority.zip committee.authorities).filter fun e => e.1.2 ≤ r).map (·.2.stake)).sum

section Sorting

theorem pairwise_mergeSort_roundStakeLe (l : List (ℕ × ℕ)) :
    (l.mergeSort roundStakeLe).Pairwise fun a b => a.1 ≤ b.1 := by
  have hsorted := @List.pairwise_mergeSort _ roundStakeLe
    (fun a b c hab hbc => by
      simp only [roundStakeLe, Bool.or_eq_true, decide_eq_true_eq, Bool.and_eq_true] at hab hbc ⊢
      omega)
    (fun a b => by
      simp only [roundStakeLe, Bool.or_eq_true, decide_eq_true_eq, Bool.and_eq_true]
      omega) l
  refine hsorted.imp fun {a b} hab => ?_
  simp only [roundStakeLe, Bool.or_eq_true, decide_eq_true_eq, Bool.and_eq_true] at hab
  omega

theorem totalWeight_mergeSort (l : List (ℕ × ℕ)) : totalWeight (l.mergeSort roundStakeLe) = totalWeight l :=
  ((List.mergeSort_perm l roundStakeLe).map _).sum_eq

theorem thresholdScan_mergeSort_least {threshold : ℕ} {l : List (ℕ × ℕ)} (hpos : 0 < threshold)
    (hreach : threshold ≤ totalWeight l) :
    ∃ k, thresholdScan threshold 0 (l.mergeSort roundStakeLe) = some k ∧ threshold ≤ weightUpTo l k ∧
      ∀ r, threshold ≤ weightUpTo l r → k ≤ r := by
  obtain ⟨k, hscan, hreached, hleast⟩ :=
    thresholdScan_least (pairwise_mergeSort_roundStakeLe l) hpos (by rwa [totalWeight_mergeSort])
  have hperm := List.mergeSort_perm l roundStakeLe
  refine ⟨k, hscan, by rwa [← weightUpTo_perm hperm], fun r hr => hleast r ?_⟩
  rwa [weightUpTo_perm hperm]

theorem thresholdScan_mergeSort_reverse_greatest {threshold : ℕ} {l : List (ℕ × ℕ)} (hpos : 0 < threshold)
    (hreach : threshold ≤ totalWeight l) :
    ∃ k, thresholdScan threshold 0 (l.mergeSort roundStakeLe).reverse = some k ∧ threshold ≤ weightFrom l k ∧
      ∀ r, threshold ≤ weightFrom l r → r ≤ k := by
  have hperm := (List.reverse_perm _).trans (List.mergeSort_perm l roundStakeLe)
  have hsorted : (l.mergeSort roundStakeLe).reverse.Pairwise fun a b => b.1 ≤ a.1 :=
    List.pairwise_reverse.mpr (pairwise_mergeSort_roundStakeLe l)
  obtain ⟨k, hscan, hreached, hgreatest⟩ :=
    thresholdScan_greatest hsorted hpos (by rwa [totalWeight, (hperm.map _).sum_eq])
  refine ⟨k, hscan, by rwa [← weightFrom_perm hperm], fun r hr => hgreatest r ?_⟩
  rwa [weightFrom_perm hperm]

end Sorting

section Stake

variable (committee : Committee) {X : Type*}

/-! Each authority's entry, keyed by what is read of it and weighed by the authority's
stake: the reports on a target, and the authorities' high quorum rounds. -/

theorem weightUpTo_zip_stake (key : X → ℕ) (xs : List X) (r : ℕ) :
    weightUpTo ((xs.zip committee.authorities).map fun e => (key e.1, e.2.stake)) r =
      (((xs.zip committee.authorities).filter fun e => key e.1 ≤ r).map (·.2.stake)).sum := by
  simp [weightUpTo, List.filter_map, Function.comp_def]

theorem weightFrom_zip_stake (key : X → ℕ) (xs : List X) (r : ℕ) :
    weightFrom ((xs.zip committee.authorities).map fun e => (key e.1, e.2.stake)) r =
      (((xs.zip committee.authorities).filter fun e => r ≤ key e.1).map (·.2.stake)).sum := by
  simp [weightFrom, List.filter_map, Function.comp_def]

theorem totalWeight_zip_stake (key : X → ℕ) {xs : List X} (hlen : xs.length = committee.size) :
    totalWeight ((xs.zip committee.authorities).map fun e => (key e.1, e.2.stake)) = committee.totalStake := by
  have hsnd : (xs.zip committee.authorities).map Prod.snd = committee.authorities :=
    List.map_snd_zip (by rw [hlen]; rfl)
  calc totalWeight ((xs.zip committee.authorities).map fun e => (key e.1, e.2.stake))
      = ((xs.zip committee.authorities).map (Authority.stake ∘ Prod.snd)).sum := by
        simp [totalWeight, Function.comp_def]
    _ = committee.totalStake := by rw [← List.map_map, hsnd]; rfl

theorem Committee.quorumThreshold_pos : 0 < committee.quorumThreshold := Nat.succ_pos _

end Stake

section Matrix

variable (committee : Committee) (targetIndex : ℕ)

/-- The `(round, stake)` pairs of the reports on the target. -/
def roundsWithStake (highestReceivedRounds : List (List ℕ)) : List (ℕ × ℕ) :=
  (highestReceivedRounds.zip committee.authorities).map fun e => (e.1.getD targetIndex 0, e.2.stake)

theorem computeQuorumRound_eq {highestReceivedRounds : List (List ℕ)}
    (hcols : ∀ row ∈ highestReceivedRounds, targetIndex < row.length) :
    computeQuorumRound committee targetIndex highestReceivedRounds =
      some ((thresholdScan committee.quorumThreshold 0
          (roundsWithStake committee targetIndex highestReceivedRounds |>.mergeSort roundStakeLe).reverse).getD 0,
        (thresholdScan committee.quorumThreshold 0
          (roundsWithStake committee targetIndex highestReceivedRounds |>.mergeSort roundStakeLe)).getD 0) := by
  -- every row has the target's entry, so no lookup fails
  have hmapM : (highestReceivedRounds.zip committee.authorities).mapM
      (fun e => e.1[targetIndex]?.map fun round => (round, e.2.stake)) =
        some (roundsWithStake committee targetIndex highestReceivedRounds) :=
    mapM_option_eq_some_map fun e he => by
      have hrow := hcols e.1 (List.of_mem_zip he).1
      simp [List.getD_eq_getElem?_getD, List.getElem?_eq_getElem hrow]
  rw [computeQuorumRound, hmapM]
  rfl

theorem weightUpTo_roundsWithStake (highestReceivedRounds : List (List ℕ)) (r : ℕ) :
    weightUpTo (roundsWithStake committee targetIndex highestReceivedRounds) r =
      stakeReportingAtMost committee targetIndex highestReceivedRounds r :=
  weightUpTo_zip_stake committee (fun row : List ℕ => row.getD targetIndex 0) highestReceivedRounds r

theorem weightFrom_roundsWithStake (highestReceivedRounds : List (List ℕ)) (r : ℕ) :
    weightFrom (roundsWithStake committee targetIndex highestReceivedRounds) r =
      stakeReportingAtLeast committee targetIndex highestReceivedRounds r :=
  weightFrom_zip_stake committee (fun row : List ℕ => row.getD targetIndex 0) highestReceivedRounds r

theorem totalWeight_roundsWithStake {highestReceivedRounds : List (List ℕ)}
    (hrows : highestReceivedRounds.length = committee.size) :
    totalWeight (roundsWithStake committee targetIndex highestReceivedRounds) = committee.totalStake :=
  totalWeight_zip_stake committee (fun row : List ℕ => row.getD targetIndex 0) hrows

/-- For an `n × n` matrix, the low and high quorum rounds of a target are the greatest
round reported at or above by a quorum and the least round reported at or below by one;
the two quorums intersect, so the low round is never above the high one. -/
theorem computeQuorumRound_spec (highestReceivedRounds : List (List ℕ))
    (hrows : highestReceivedRounds.length = committee.size)
    (hcols : ∀ row ∈ highestReceivedRounds, row.length = committee.size) (htarget : targetIndex < committee.size)
    (quorumRoundPerAuthority : List (ℕ × ℕ)) (hauthorities : quorumRoundPerAuthority.length = committee.size) :
    (∃ low high, computeQuorumRound committee targetIndex highestReceivedRounds = some (low, high) ∧
      (committee.quorumThreshold ≤ stakeReportingAtLeast committee targetIndex highestReceivedRounds low ∧
        ∀ r, committee.quorumThreshold ≤ stakeReportingAtLeast committee targetIndex highestReceivedRounds r →
          r ≤ low) ∧
      (committee.quorumThreshold ≤ stakeReportingAtMost committee targetIndex highestReceivedRounds high ∧
        ∀ r, committee.quorumThreshold ≤ stakeReportingAtMost committee targetIndex highestReceivedRounds r →
          high ≤ r) ∧
      low ≤ high) ∧
    (committee.quorumThreshold ≤
        stakeWithHighQuorumRoundAtMost committee quorumRoundPerAuthority
          (calculateNetworkHighQuorumRound committee quorumRoundPerAuthority) ∧
      ∀ r, committee.quorumThreshold ≤ stakeWithHighQuorumRoundAtMost committee quorumRoundPerAuthority r →
        calculateNetworkHighQuorumRound committee quorumRoundPerAuthority ≤ r) := by
  have hQ := committee.quorumThreshold_le_totalStake
  have hreports : committee.quorumThreshold ≤ totalWeight (roundsWithStake committee targetIndex highestReceivedRounds) := by
    rwa [totalWeight_roundsWithStake committee targetIndex hrows]
  obtain ⟨low, hlowScan, hlowReached, hlowGreatest⟩ :=
    thresholdScan_mergeSort_reverse_greatest committee.quorumThreshold_pos hreports
  obtain ⟨high, hhighScan, hhighReached, hhighLeast⟩ :=
    thresholdScan_mergeSort_least committee.quorumThreshold_pos hreports
  have hatLeast := weightFrom_roundsWithStake committee targetIndex highestReceivedRounds
  have hatMost := weightUpTo_roundsWithStake committee targetIndex highestReceivedRounds
  refine ⟨⟨low, high, ?_, ⟨?_, fun r hr => ?_⟩, ⟨?_, fun r hr => ?_⟩, ?_⟩, ?_⟩
  · rw [computeQuorumRound_eq committee targetIndex fun row hrow => hcols row hrow ▸ htarget,
      hlowScan, hhighScan]
    rfl
  · rwa [← hatLeast]
  · exact hlowGreatest r (by rwa [hatLeast])
  · rwa [← hatMost]
  · exact hhighLeast r (by rwa [hatMost])
  · -- a quorum reports at least `low` and a quorum at most `high`; two quorums weigh more
    -- than the whole committee, so they share an authority, whose report lies between
    by_contra hlt
    have hdisjoint := weightUpTo_add_weightFrom_le (not_le.mp hlt) (roundsWithStake committee targetIndex highestReceivedRounds)
    rw [totalWeight_roundsWithStake committee targetIndex hrows] at hdisjoint
    have := committee.totalStake_lt_two_mul_quorumThreshold
    omega
  · -- the network round is the same scan over the authorities' high quorum rounds
    have hreach : committee.quorumThreshold ≤
        totalWeight ((quorumRoundPerAuthority.zip committee.authorities).map fun e => (e.1.2, e.2.stake)) := by
      rwa [totalWeight_zip_stake committee (fun q : ℕ × ℕ => q.2) hauthorities]
    obtain ⟨k, hscan, hreached, hleast⟩ := thresholdScan_mergeSort_least committee.quorumThreshold_pos hreach
    have hnetwork : calculateNetworkHighQuorumRound committee quorumRoundPerAuthority = k := by
      rw [calculateNetworkHighQuorumRound, calculateNetworkHighQuorumRoundInternal, hscan]
      rfl
    rw [hnetwork]
    have hatMostNetwork := weightUpTo_zip_stake committee (fun q : ℕ × ℕ => q.2) quorumRoundPerAuthority
    refine ⟨by rwa [hatMostNetwork] at hreached, fun r hr => hleast r ?_⟩
    rwa [hatMostNetwork]

/-- The four equal authorities and the matrix of the source's test. -/
def proberCommittee : Committee :=
  ⟨[⟨1⟩, ⟨1⟩, ⟨1⟩, ⟨1⟩], Committee.four_equal_ne_nil, Committee.four_equal_total_ne_zero⟩

def proberMatrix : List (List ℕ) := [[10, 11, 12, 13], [5, 2, 7, 4], [0, 0, 0, 0], [3, 4, 5, 6]]

theorem computeQuorumRound_spec_sourceMatrix :
    (proberMatrix.length = proberCommittee.size ∧ (∀ row ∈ proberMatrix, row.length = proberCommittee.size) ∧
      0 < proberCommittee.size ∧ [(3, 5), (2, 4), (5, 7), (4, 6)].length = proberCommittee.size) ∧
    (∃ low high, computeQuorumRound proberCommittee 0 proberMatrix = some (low, high) ∧
      (proberCommittee.quorumThreshold ≤ stakeReportingAtLeast proberCommittee 0 proberMatrix low ∧
        ∀ r, proberCommittee.quorumThreshold ≤ stakeReportingAtLeast proberCommittee 0 proberMatrix r → r ≤ low) ∧
      (proberCommittee.quorumThreshold ≤ stakeReportingAtMost proberCommittee 0 proberMatrix high ∧
        ∀ r, proberCommittee.quorumThreshold ≤ stakeReportingAtMost proberCommittee 0 proberMatrix r → high ≤ r) ∧
      low ≤ high) ∧
    (proberCommittee.quorumThreshold ≤
        stakeWithHighQuorumRoundAtMost proberCommittee [(3, 5), (2, 4), (5, 7), (4, 6)]
          (calculateNetworkHighQuorumRound proberCommittee [(3, 5), (2, 4), (5, 7), (4, 6)]) ∧
      ∀ r, proberCommittee.quorumThreshold ≤ stakeWithHighQuorumRoundAtMost proberCommittee
          [(3, 5), (2, 4), (5, 7), (4, 6)] r →
        calculateNetworkHighQuorumRound proberCommittee [(3, 5), (2, 4), (5, 7), (4, 6)] ≤ r) :=
  ⟨⟨by decide, by decide, by decide, by decide⟩,
    computeQuorumRound_spec proberCommittee 0 proberMatrix (by decide) (by decide) (by decide)
      [(3, 5), (2, 4), (5, 7), (4, 6)] (by decide)⟩

end Matrix

end Iota.Consensus
