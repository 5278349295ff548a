import Iota.Consensus.Committee

/-! The leader swap table (`LeaderSwapTable` of `consensus/core/src/leader_schedule.rs`).
`new_inner` orders the authorities by reputation score, highest first, and takes
from each end of that order the longest run whose stake stays within
`swap_stake_threshold` percent of the total: the good nodes from the top, the bad
nodes from the bottom.  `swap` replaces a bad leader by a good node drawn at random.
The order of equal scores comes from a shuffle seeded by the commit index, which is
a parameter here; hostnames and the scores kept for debugging are left out. -/

namespace Iota.Consensus

inductive SwapTablePanic
  /-- `swap_stake_threshold` outside `[0, 33]`. -/
  | thresholdOutOfRange
  /-- A score vector of another size than the committee: `to_authority_index(..).expect`
  or the `assert_eq!` on the length. -/
  | sizeMismatch
  | multiLeader
  /-- "There should be at least one good node available". -/
  | noGoodNode
  deriving DecidableEq, Repr

/-- Nodes are `(authority, stake)` pairs.  The bad nodes, a `BTreeMap` in the
source, are only asked whether they hold an authority. -/
structure LeaderSwapTable where
  goodNodes : List (ℕ × ℕ)
  badNodes : List (ℕ × ℕ)
  reputationScoresDesc : List (ℕ × ℕ)
  deriving DecidableEq, Repr

namespace LeaderSwapTable

variable (c : Committee)

/-- `Self::default()`. -/
def empty : LeaderSwapTable := ⟨[], [], []⟩

/-- `ReputationScores::authorities_by_score`: each authority index with its score. -/
def authoritiesByScore (scores : List ℕ) : List (ℕ × ℕ) := (List.range scores.length).zip scores

def node (authority : ℕ) : ℕ × ℕ := (authority, c.stake authority)

/-- The loop of `retrieve_first_nodes`, from the stake taken so far: an authority
that takes the stake above the cutoff ends the run and is left out. -/
def retrieveFirstNodesFrom (cutoff : ℕ) : ℕ → List (ℕ × ℕ) → List (ℕ × ℕ)
  | _, [] => []
  | stake, (authority, _) :: rest =>
    if cutoff < stake + c.stake authority then []
    else node c authority :: retrieveFirstNodesFrom cutoff (stake + c.stake authority) rest

def retrieveFirstNodes (authorities : List (ℕ × ℕ)) (stakeThreshold : ℕ) : List (ℕ × ℕ) :=
  retrieveFirstNodesFrom c (stakeThreshold * c.totalStake / 100) 0 authorities

/-- `a2.1.cmp(&a1.1)`: by score, highest first. -/
def byScoreDesc (a b : ℕ × ℕ) : Bool := b.2 ≤ a.2

def newInner (shuffle : List (ℕ × ℕ) → List (ℕ × ℕ)) (swapStakeThreshold : ℕ) (scores : List ℕ) :
    Except SwapTablePanic LeaderSwapTable :=
  if 33 < swapStakeThreshold then .error .thresholdOutOfRange
  else if scores.isEmpty then .ok empty
  else if scores.length ≠ c.size then .error .sizeMismatch
  else
    -- a stable sort of the shuffled authorities
    let sorted := (shuffle (authoritiesByScore scores)).mergeSort byScoreDesc
    .ok ⟨retrieveFirstNodes c sorted swapStakeThreshold, retrieveFirstNodes c sorted.reverse swapStakeThreshold,
      sorted⟩

/-- `swap(leader, leader_round, leader_offset)`, with `draw` the number the `StdRng`
seeded by the round and offset draws for `choose`. -/
def swap (t : LeaderSwapTable) (draw : ℕ) (leader leaderOffset : ℕ) : Except SwapTablePanic (Option ℕ) :=
  if t.badNodes.any (·.1 == leader) then
    if leaderOffset ≠ 0 then .error .multiLeader
    else
      match t.goodNodes[draw % t.goodNodes.length]? with
      | some (authority, _) => .ok (some authority)
      | none => .error .noGoodNode
  else .ok none

/-! ### The runs taken from each end -/

/-- The stake of the authorities of some `(authority, score)` pairs. -/
def authoritiesStake (authorities : List (ℕ × ℕ)) : ℕ := (authorities.map fun p => c.stake p.1).sum

def stakeOf (nodes : List (ℕ × ℕ)) : ℕ := (nodes.map Prod.snd).sum

theorem stakeOf_map_node (authorities : List (ℕ × ℕ)) :
    stakeOf (authorities.map fun p => node c p.1) = authoritiesStake c authorities := by
  simp [stakeOf, authoritiesStake, node, Function.comp_def]

theorem retrieveFirstNodesFrom_eq_take {cutoff : ℕ} :
    ∀ {stake : ℕ} (authorities : List (ℕ × ℕ)), stake ≤ cutoff →
      ∃ g, retrieveFirstNodesFrom c cutoff stake authorities = (authorities.take g).map (fun p => node c p.1) ∧
        stake + authoritiesStake c (authorities.take g) ≤ cutoff
  | stake, [], hstake => ⟨0, rfl, by simpa [authoritiesStake] using hstake⟩
  | stake, (authority, score) :: rest, hstake => by
    rw [retrieveFirstNodesFrom]
    split_ifs with hcut
    · exact ⟨0, rfl, by simpa [authoritiesStake] using hstake⟩
    · have hnext : stake + c.stake authority ≤ cutoff := by omega
      obtain ⟨g, hrun, hle⟩ := retrieveFirstNodesFrom_eq_take rest hnext
      refine ⟨g + 1, by rw [hrun]; rfl, ?_⟩
      simp only [authoritiesStake, List.take_succ_cons, List.map_cons, List.sum_cons] at hle ⊢
      omega

theorem retrieveFirstNodes_eq_take (authorities : List (ℕ × ℕ)) (stakeThreshold : ℕ) :
    ∃ g, retrieveFirstNodes c authorities stakeThreshold = (authorities.take g).map (fun p => node c p.1) ∧
      authoritiesStake c (authorities.take g) ≤ stakeThreshold * c.totalStake / 100 := by
  obtain ⟨g, hrun, hle⟩ := retrieveFirstNodesFrom_eq_take c authorities (Nat.zero_le _)
  exact ⟨g, hrun, by simpa using hle⟩

theorem indices_disjoint {authorities : List (ℕ × ℕ)} (hnodup : (authorities.map Prod.fst).Nodup)
    {g b cutoff : ℕ} (hg : authoritiesStake c (authorities.take g) ≤ cutoff)
    (hb : authoritiesStake c (authorities.reverse.take b) ≤ cutoff) (hcut : 2 * cutoff < authoritiesStake c authorities) :
    ∀ x ∈ authorities.take g, ∀ y ∈ authorities.reverse.take b, x.1 ≠ y.1 := by
  rw [List.take_reverse] at hb ⊢
  have hsuffix : authoritiesStake c (authorities.drop (authorities.length - b)) ≤ cutoff := by
    simpa [authoritiesStake, List.map_reverse, List.sum_reverse] using hb
  by_cases hgb : g ≤ authorities.length - b
  · -- the prefix ends before the suffix starts
    intro x hx y hy hxy
    have hdisj := List.disjoint_take_drop hnodup hgb
    rw [← List.map_take, ← List.map_drop] at hdisj
    exact hdisj (List.mem_map_of_mem hx) (hxy ▸ List.mem_map_of_mem (List.mem_reverse.mp hy))
  · -- otherwise the two runs would hold every authority between them
    exfalso
    have hsplit := List.sum_take_add_sum_drop (authorities.map fun p => c.stake p.1) g
    have hsub : (authorities.drop g).Sublist (authorities.drop (authorities.length - b)) :=
      List.drop_sublist_drop_left authorities (by omega)
    have hle : authoritiesStake c (authorities.drop g) ≤ authoritiesStake c (authorities.drop (authorities.length - b)) :=
      (hsub.map _).sum_le_sum fun _ _ => Nat.zero_le _
    rw [← List.map_take, ← List.map_drop] at hsplit
    unfold authoritiesStake at *
    omega

/-! ### The authorities of a score vector -/

theorem map_fst_authoritiesByScore (scores : List ℕ) :
    (authoritiesByScore scores).map Prod.fst = List.range scores.length :=
  List.map_fst_zip (by simp)

theorem authoritiesStake_of_perm {authorities : List (ℕ × ℕ)} {scores : List ℕ}
    (hperm : authorities.Perm (authoritiesByScore scores)) (hsize : scores.length = c.size) :
    authoritiesStake c authorities = c.totalStake := by
  have hmap : (authorities.map fun p => c.stake p.1) = (authorities.map Prod.fst).map c.stake := by
    rw [List.map_map]
    rfl
  have hrange : (List.range c.size).toFinset = Finset.range c.size := by
    ext i
    simp
  rw [authoritiesStake, hmap, ((hperm.map Prod.fst).map c.stake).sum_eq, map_fst_authoritiesByScore, hsize,
    ← List.sum_toFinset c.stake List.nodup_range, hrange, c.totalStake_eq_sum_range]

theorem nodup_of_perm {authorities : List (ℕ × ℕ)} {scores : List ℕ}
    (hperm : authorities.Perm (authoritiesByScore scores)) : (authorities.map Prod.fst).Nodup := by
  rw [(hperm.map Prod.fst).nodup_iff, map_fst_authoritiesByScore]
  exact List.nodup_range

theorem pairwise_mergeSort_byScoreDesc (authorities : List (ℕ × ℕ)) :
    (authorities.mergeSort byScoreDesc).Pairwise fun a b => b.2 ≤ a.2 := by
  have hsorted := @List.pairwise_mergeSort _ byScoreDesc
    (fun a b c hab hbc => by simp only [byScoreDesc, decide_eq_true_eq] at *; omega)
    (fun a b => by simp only [byScoreDesc, Bool.or_eq_true, decide_eq_true_eq]; omega) authorities
  exact hsorted.imp fun h => by simpa [byScoreDesc] using h

/-- For a threshold within `[0, 33]` and a score vector of the committee's size,
whatever order the shuffle leaves equal scores in, the table orders all the
authorities by score, the good nodes are a highest-score prefix and the bad nodes a
lowest-score suffix of that order, each within the threshold's share of the stake,
and no authority is both. -/
theorem newInner_wellFormed {shuffle : List (ℕ × ℕ) → List (ℕ × ℕ)} (hshuffle : ∀ l, (shuffle l).Perm l)
    {swapStakeThreshold : ℕ} (hthreshold : swapStakeThreshold ≤ 33) {scores : List ℕ} (hne : scores ≠ [])
    (hsize : scores.length = c.size) :
    ∃ t, newInner c shuffle swapStakeThreshold scores = .ok t ∧
      t.reputationScoresDesc.Perm (authoritiesByScore scores) ∧
      t.reputationScoresDesc.Pairwise (fun a b => b.2 ≤ a.2) ∧
      (∃ g, t.goodNodes = (t.reputationScoresDesc.take g).map fun p => node c p.1) ∧
      (∃ b, t.badNodes = (t.reputationScoresDesc.reverse.take b).map fun p => node c p.1) ∧
      stakeOf t.goodNodes ≤ swapStakeThreshold * c.totalStake / 100 ∧
      stakeOf t.badNodes ≤ swapStakeThreshold * c.totalStake / 100 ∧
      ∀ x ∈ t.goodNodes, ∀ y ∈ t.badNodes, x.1 ≠ y.1 := by
  set sorted := (shuffle (authoritiesByScore scores)).mergeSort byScoreDesc with hsorted
  have hperm : sorted.Perm (authoritiesByScore scores) := (List.mergeSort_perm _ _).trans (hshuffle _)
  obtain ⟨g, hgood, hg⟩ := retrieveFirstNodes_eq_take c sorted swapStakeThreshold
  obtain ⟨b, hbad, hb⟩ := retrieveFirstNodes_eq_take c sorted.reverse swapStakeThreshold
  have hnewInner : newInner c shuffle swapStakeThreshold scores =
      .ok ⟨retrieveFirstNodes c sorted swapStakeThreshold, retrieveFirstNodes c sorted.reverse swapStakeThreshold,
        sorted⟩ := by
    rw [newInner, if_neg (by omega), if_neg (by simpa using hne), if_neg (by simpa using hsize)]
  -- the cutoff is at most a third of the stake, which is not zero
  have hcut : 2 * (swapStakeThreshold * c.totalStake / 100) < authoritiesStake c sorted := by
    have hpos : 0 < c.totalStake := Nat.pos_of_ne_zero c.total_ne_zero
    have hmul : swapStakeThreshold * c.totalStake ≤ 33 * c.totalStake := Nat.mul_le_mul_right _ hthreshold
    rw [authoritiesStake_of_perm c hperm hsize]
    omega
  refine ⟨_, hnewInner, hperm, pairwise_mergeSort_byScoreDesc _, ⟨g, hgood⟩, ⟨b, hbad⟩, ?_, ?_, ?_⟩
  · rw [hgood, stakeOf_map_node]
    exact hg
  · rw [hbad, stakeOf_map_node]
    exact hb
  · intro x hx y hy
    rw [hgood] at hx
    rw [hbad] at hy
    obtain ⟨x', hx', rfl⟩ := List.mem_map.mp hx
    obtain ⟨y', hy', rfl⟩ := List.mem_map.mp hy
    exact indices_disjoint c (nodup_of_perm hperm) hg hb hcut x' hx' y' hy'

theorem swap_of_bad {t : LeaderSwapTable} {leader : ℕ} (hbad : ∃ node ∈ t.badNodes, node.1 = leader)
    (hgood : t.goodNodes ≠ []) (draw : ℕ) :
    ∃ authority, t.swap draw leader 0 = .ok (some authority) ∧ ∃ node ∈ t.goodNodes, node.1 = authority := by
  have hany : t.badNodes.any (·.1 == leader) = true := by simpa using hbad
  have hlt : draw % t.goodNodes.length < t.goodNodes.length := Nat.mod_lt _ (List.length_pos_iff.mpr hgood)
  refine ⟨t.goodNodes[draw % t.goodNodes.length].1, ?_, _, List.getElem_mem hlt, rfl⟩
  rw [swap, if_pos hany, if_neg (by simp), List.getElem?_eq_getElem hlt]

/-- Stakes 9 and 1, the first authority with the higher score. -/
def skewedStakes : Committee := ⟨[⟨9⟩, ⟨1⟩], by simp, by simp⟩

theorem newInner_wellFormed_skewed :
    ((∀ l : List (ℕ × ℕ), (id l).Perm l) ∧ 33 ≤ 33 ∧ [2, 1] ≠ [] ∧ [2, 1].length = skewedStakes.size) ∧
      ∃ t, newInner skewedStakes id 33 [2, 1] = .ok t ∧
        t.reputationScoresDesc.Perm (authoritiesByScore [2, 1]) ∧
        t.reputationScoresDesc.Pairwise (fun a b => b.2 ≤ a.2) ∧
        (∃ g, t.goodNodes = (t.reputationScoresDesc.take g).map fun p => node skewedStakes p.1) ∧
        (∃ b, t.badNodes = (t.reputationScoresDesc.reverse.take b).map fun p => node skewedStakes p.1) ∧
        stakeOf t.goodNodes ≤ 33 * skewedStakes.totalStake / 100 ∧
        stakeOf t.badNodes ≤ 33 * skewedStakes.totalStake / 100 ∧
        ∀ x ∈ t.goodNodes, ∀ y ∈ t.badNodes, x.1 ≠ y.1 :=
  ⟨⟨fun l => List.Perm.refl l, le_rfl, by decide, rfl⟩,
    newInner_wellFormed skewedStakes (fun l => List.Perm.refl l) le_rfl (by decide) rfl⟩

end LeaderSwapTable

end Iota.Consensus
