import Iota.Core.StakeAggregatorTally

/-! Split-brain detection (`MultiStakeAggregator::uncommitted_stake`, `plurality_stake`
and `quorum_unreachable` of `crates/iota-core/src/stake_aggregator.rs`, called by
`CheckpointSignatureAggregator::check_for_split_brain`).  Every key has its own
aggregator, which refuses a second signature of one authority on that key only:
an authority that signs several keys is counted once for each of them, and the
stake said to be uncommitted is the total voting power less all those counts. -/

namespace Iota.Core.AuthorityAggregator

/-- `TOTAL_VOTING_POWER`, which `Committee::total_votes` returns. -/
def TOTAL_VOTING_POWER : ℕ := 10000

def InsertResult.isQuorumReached {α CertT : Type} : InsertResult α CertT → Bool
  | .quorumReached _ => true
  | _ => false

namespace MultiStakeAggregator

variable {α : Type}

/-- The votes of every key, added up. -/
def totalVotes (m : MultiStakeAggregator α) : ℕ := (m.stakeMaps.map (·.2.totalVotes)).sum

/-- `committee.total_votes() - self.total_votes()` on `u64`: `none` where the
subtraction underflows, which panics where overflow checks are on and wraps
around where they are off. -/
def uncommittedStake (m : MultiStakeAggregator α) : Option ℕ :=
  if m.totalVotes ≤ TOTAL_VOTING_POWER then some (TOTAL_VOTING_POWER - m.totalVotes) else none

/-- The votes of the key with the most, `0` when there is no key. -/
def pluralityStake (m : MultiStakeAggregator α) : ℕ := ((m.stakeMaps.map (·.2.totalVotes)).max?).getD 0

/-- `quorum_unreachable` for the strong threshold; `none` where
`uncommitted_stake` underflows. -/
def quorumUnreachable (m : MultiStakeAggregator α) : Option Bool :=
  m.uncommittedStake.map fun uncommitted => decide (uncommitted + m.pluralityStake < QUORUM_THRESHOLD)

variable (committee : Committee α)

/-- Every aggregator of the map keeps its tally. -/
def Tallied (m : MultiStakeAggregator α) : Prop := ∀ e ∈ m.stakeMaps, e.2.Tallied committee

theorem tallied_empty : (⟨[]⟩ : MultiStakeAggregator α).Tallied committee := by
  simp [Tallied]

variable [DecidableEq α]

/-- Signatures inserted one after another under their keys. -/
def insertAll (m : MultiStakeAggregator α) (signatures : List ((ℕ × TransactionEffects) × SignedTransactionEffects α)) :
    MultiStakeAggregator α :=
  signatures.foldl (fun m signature => (m.insert committee signature.1 signature.2).2) m

theorem Tallied.insert {m : MultiStakeAggregator α} (hm : m.Tallied committee) (k : ℕ × TransactionEffects)
    (envelope : SignedTransactionEffects α) : (m.insert committee k envelope).2.Tallied committee := by
  unfold MultiStakeAggregator.insert
  cases hlookup : m.stakeMaps.lookup k with
  | some agg =>
    -- the aggregator of the key is replaced by the one that counted the vote
    have hagg : (agg.insert committee envelope).2.Tallied committee :=
      (hm _ (mem_stakeMaps_of_lookup hlookup)).insert
    dsimp only
    generalize agg.insert committee envelope = out at hagg ⊢
    obtain ⟨result, agg'⟩ := out
    intro e he
    obtain ⟨e', hmem, rfl⟩ := List.mem_map.mp he
    split_ifs
    · exact hagg
    · exact hm e' hmem
  | none =>
    have hagg : (StakeAggregator.new.insert committee envelope).2.Tallied committee :=
      (StakeAggregator.tallied_new committee).insert
    dsimp only
    generalize StakeAggregator.new.insert committee envelope = out at hagg ⊢
    obtain ⟨result, agg⟩ := out
    cases result with
    | failed error => exact hm
    | quorumReached cert | notEnoughVotes badVotes badAuthorities =>
      intro e he
      rcases List.mem_append.mp he with he | he
      · exact hm e he
      · rw [List.mem_singleton.mp he]
        exact hagg

theorem Tallied.insertAll {m : MultiStakeAggregator α} (hm : m.Tallied committee)
    (signatures : List ((ℕ × TransactionEffects) × SignedTransactionEffects α)) :
    (m.insertAll committee signatures).Tallied committee := by
  induction signatures generalizing m with
  | nil => exact hm
  | cons signature signatures ih => exact ih (hm.insert committee signature.1 signature.2)

theorem totalVotes_insertAll (signatures : List ((ℕ × TransactionEffects) × SignedTransactionEffects α)) :
    ((⟨[]⟩ : MultiStakeAggregator α).insertAll committee signatures).totalVotes =
      (((⟨[]⟩ : MultiStakeAggregator α).insertAll committee signatures).stakeMaps.map
        fun e => StakeAggregator.votes committee e.2.data).sum := by
  have hm := (tallied_empty committee).insertAll committee signatures
  unfold totalVotes
  congr 1
  exact List.map_congr_left fun e he => (hm e he).totalVotes_eq

end MultiStakeAggregator

/-! ### One validator signing several digests -/

/-- The key of a signature on a digest, in the epoch of `fourValidators`. -/
def digestKey (digest : ℕ) : ℕ × TransactionEffects := (0, ⟨digest, none, [], []⟩)

/-- A valid signature of validator `a` on our summary, as `try_aggregate` builds it. -/
def summarySignature (a : Fin 4) : SignedTransactionEffects (Fin 4) := ⟨⟨0, none, [], []⟩, ⟨0, a, true⟩⟩

/-- Validator `0` signs three different digests. -/
def equivocation : List ((ℕ × TransactionEffects) × SignedTransactionEffects (Fin 4)) :=
  [(digestKey 1, summarySignature 0), (digestKey 2, summarySignature 0), (digestKey 3, summarySignature 0)]

/-- The aggregators once validator `0` has signed three digests. -/
def afterEquivocation : MultiStakeAggregator (Fin 4) := (⟨[]⟩ : MultiStakeAggregator (Fin 4)).insertAll fourValidators equivocation

/-- After validator `0` signs three digests, only its signatures are stored, yet
`uncommitted_stake` is 2500 where the three other validators hold 7500, and
`quorum_unreachable` holds although those three then bring the first digest to a
quorum; after five digests the subtraction underflows. -/
theorem uncommittedStake_counts_equivocation :
    (∀ e ∈ afterEquivocation.stakeMaps, e.2.data.map Prod.fst = [0]) ∧
    afterEquivocation.uncommittedStake = some 2500 ∧ afterEquivocation.quorumUnreachable = some true ∧
    ((afterEquivocation.insertAll fourValidators [(digestKey 1, summarySignature 1), (digestKey 1, summarySignature 2)]).insert
      fourValidators (digestKey 1) (summarySignature 3)).1.isQuorumReached = true ∧
    ((⟨[]⟩ : MultiStakeAggregator (Fin 4)).insertAll fourValidators
      (equivocation ++ [(digestKey 4, summarySignature 0), (digestKey 5, summarySignature 0)])).uncommittedStake = none := by
  decide

end Iota.Core.AuthorityAggregator
