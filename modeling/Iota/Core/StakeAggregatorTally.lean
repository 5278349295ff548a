import Iota.Core.AuthorityAggregator

/-! The votes a `StakeAggregator<AuthoritySignInfo, true>` counts, along any
sequence of `insert` calls from an empty aggregator. `total_votes` is always the
weight of the authorities stored; a failed insert leaves it alone, but
`insert_generic` stores a signer of no weight before it fails; and a quorum is
returned exactly when the new signer is a fresh member and all the signatures
stored, its own included, verify and reach the threshold. -/

namespace Iota.Core.AuthorityAggregator

namespace StakeAggregator

variable {α : Type} (committee : Committee α)

/-- The committee weight of the authorities of some stored signatures. -/
def votes (data : List (α × AuthoritySignInfo α)) : ℕ := (data.map fun entry => committee.weight entry.1).sum

/-- The envelopes inserted one after another. -/
def insertAll [DecidableEq α] (agg : StakeAggregator α) (envelopes : List (SignedTransactionEffects α)) :
    StakeAggregator α :=
  envelopes.foldl (fun agg envelope => (agg.insert committee envelope).2) agg

/-- What `insert` keeps: the signatures are of distinct authorities, of the
committee's epoch, and `total_votes` is their weight. -/
structure Tallied (agg : StakeAggregator α) : Prop where
  wellFormed : agg.WellFormed fun s => s.epoch = committee.epoch
  totalVotes_eq : agg.totalVotes = votes committee agg.data

@[simp] theorem votes_nil : votes committee ([] : List (α × AuthoritySignInfo α)) = 0 := rfl

@[simp] theorem votes_append (l₁ l₂ : List (α × AuthoritySignInfo α)) :
    votes committee (l₁ ++ l₂) = votes committee l₁ + votes committee l₂ := by
  simp [votes]

@[simp] theorem votes_singleton (a : α) (s : AuthoritySignInfo α) : votes committee [(a, s)] = committee.weight a := by
  simp [votes]

theorem votes_filter_add_not (l : List (α × AuthoritySignInfo α)) (p : α × AuthoritySignInfo α → Bool) :
    votes committee (l.filter p) + votes committee (l.filter fun x => !p x) = votes committee l := by
  simpa [votes] using List.sum_map_filter_add_sum_map_filter_not (fun x => p x = true) (fun x => committee.weight x.1) l

theorem votes_signatures {agg : StakeAggregator α} {Q : AuthoritySignInfo α → Prop} (hagg : agg.WellFormed Q) :
    ((agg.data.map Prod.snd).map fun s => committee.weight s.authority).sum = votes committee agg.data := by
  rw [List.map_map, votes]
  congr 1
  exact List.map_congr_left fun x hx => by simp [(hagg.2 x hx).1]

theorem all_members_iff {agg : StakeAggregator α} {Q : AuthoritySignInfo α → Prop} (hagg : agg.WellFormed Q) :
    (agg.data.map Prod.snd).all (fun s => (committee.authorityIndex s.authority).isSome) = true ↔
      ∀ x ∈ agg.data, (committee.authorityIndex x.1).isSome = true := by
  rw [List.all_eq_true]
  constructor
  · intro h x hx
    simpa [(hagg.2 x hx).1] using h x.2 (List.mem_map_of_mem hx)
  · intro h s hs
    obtain ⟨x, hx, rfl⟩ := List.mem_map.mp hs
    simpa [(hagg.2 x hx).1] using h x hx

theorem tallied_new : (new : StakeAggregator α).Tallied committee :=
  ⟨new_wellFormed, rfl⟩

theorem Tallied.newFromAuthSignInfos {agg : StakeAggregator α} (hagg : agg.Tallied committee)
    (hq : QUORUM_THRESHOLD ≤ agg.totalVotes) :
    AuthorityQuorumSignInfo.newFromAuthSignInfos committee (agg.data.map Prod.snd) =
      if ∀ x ∈ agg.data, (committee.authorityIndex x.1).isSome = true then
        .ok ⟨committee.epoch, agg.data.map Prod.snd⟩
      else .error .unknownSigner := by
  have hepoch : (agg.data.map Prod.snd).all (·.epoch = committee.epoch) := by
    simpa using fun x hx => (hagg.wellFormed.2 x hx).2
  have hweight := votes_signatures committee hagg.wellFormed
  have htotal := hagg.totalVotes_eq
  have hmembers := all_members_iff committee hagg.wellFormed
  rw [AuthorityQuorumSignInfo.newFromAuthSignInfos, if_neg (by simpa using hepoch), if_neg (by omega)]
  by_cases hmem : ∀ x ∈ agg.data, (committee.authorityIndex x.1).isSome = true
  · rw [if_neg (not_not_intro (Iff.mpr hmembers hmem)), if_pos hmem]
    rfl
  · rw [if_pos (fun hall => hmem (Iff.mp hmembers hall)), if_neg hmem]
    rfl

theorem Tallied.prune {agg : StakeAggregator α} (hagg : agg.Tallied committee) :
    (⟨agg.data.filter (·.2.verifies), agg.totalVotes - votes committee (agg.data.filter fun x => !x.2.verifies)⟩ :
      StakeAggregator α).Tallied committee where
  wellFormed := hagg.wellFormed.filter _ _
  totalVotes_eq := by
    have hsplit := votes_filter_add_not committee agg.data (·.2.verifies)
    have htotal := hagg.totalVotes_eq
    dsimp only
    omega

variable [DecidableEq α]

theorem Tallied.insertGeneric {agg : StakeAggregator α} {s : AuthoritySignInfo α} (hagg : agg.Tallied committee)
    (hs : s.epoch = committee.epoch) : (agg.insertGeneric committee s.authority s).2.Tallied committee where
  wellFormed := insertGeneric_wellFormed committee hagg.wellFormed hs
  totalVotes_eq := by
    have htotal := hagg.totalVotes_eq
    unfold StakeAggregator.insertGeneric
    cases agg.data.lookup s.authority with
    | some old => exact htotal
    | none =>
      dsimp only
      split_ifs with hw <;> simp only [votes_append, votes_singleton] <;> omega

/-! ### What `insert` does -/

section Insert

variable {agg : StakeAggregator α} {envelope : SignedTransactionEffects α}

theorem insert_of_epoch_ne (h : envelope.authSig.epoch ≠ committee.epoch) :
    agg.insert committee envelope = (.failed (.wrongEpoch committee.epoch envelope.authSig.epoch), agg) :=
  if_pos (Ne.symm h)

theorem insert_of_lookup_eq_some {old : AuthoritySignInfo α} (hepoch : envelope.authSig.epoch = committee.epoch)
    (h : agg.data.lookup envelope.authSig.authority = some old) :
    agg.insert committee envelope =
      (.failed (.stakeAggregatorRepeatedSigner envelope.authSig.authority (decide (old ≠ envelope.authSig))), agg) := by
  simp [insert, insertGeneric, hepoch, h]

theorem insert_of_weight_eq_zero (hepoch : envelope.authSig.epoch = committee.epoch)
    (h : agg.data.lookup envelope.authSig.authority = none) (hw : committee.weight envelope.authSig.authority = 0) :
    agg.insert committee envelope =
      (.failed .invalidAuthenticator, { agg with data := agg.data ++ [(envelope.authSig.authority, envelope.authSig)] }) := by
  simp [insert, insertGeneric, hepoch, h, hw]

theorem Tallied.insert_of_weight_pos (hagg : agg.Tallied committee) (hepoch : envelope.authSig.epoch = committee.epoch)
    (h : agg.data.lookup envelope.authSig.authority = none) (hw : 0 < committee.weight envelope.authSig.authority) :
    let data := agg.data ++ [(envelope.authSig.authority, envelope.authSig)]
    let totalVotes := agg.totalVotes + committee.weight envelope.authSig.authority
    agg.insert committee envelope =
      if QUORUM_THRESHOLD ≤ totalVotes then
        if ∀ x ∈ data, (committee.authorityIndex x.1).isSome = true then
          if (data.map Prod.snd).all (·.verifies) then
            (.quorumReached ⟨committee.epoch, data.map Prod.snd⟩, ⟨data, totalVotes⟩)
          else
            (.notEnoughVotes (votes committee (data.filter fun x => !x.2.verifies))
                ((data.filter fun x => !x.2.verifies).map Prod.fst),
              ⟨data.filter (·.2.verifies), totalVotes - votes committee (data.filter fun x => !x.2.verifies)⟩)
        else (.failed .unknownSigner, ⟨data, totalVotes⟩)
      else (.notEnoughVotes 0 [], ⟨data, totalVotes⟩) := by
  intro data totalVotes
  have hgen : agg.insertGeneric committee envelope.authSig.authority envelope.authSig =
      (if QUORUM_THRESHOLD ≤ totalVotes then .quorumReached data else .notEnoughVotes 0 [], ⟨data, totalVotes⟩) := by
    simp [StakeAggregator.insertGeneric, h, hw, data, totalVotes]
  have htallied : (⟨data, totalVotes⟩ : StakeAggregator α).Tallied committee := by
    have := hagg.insertGeneric committee hepoch
    rwa [hgen] at this
  rw [StakeAggregator.insert, if_neg (by simp [hepoch]), hgen]
  by_cases hq : QUORUM_THRESHOLD ≤ totalVotes
  · -- the aggregate is formed when every signer is a member, and verifies exactly when each signature does
    simp only [if_pos hq, htallied.newFromAuthSignInfos committee hq]
    by_cases hmem : ∀ x ∈ data, (committee.authorityIndex x.1).isSome = true
    · simp only [if_pos hmem]
      split_ifs <;> rfl
    · simp only [if_neg hmem]
  · simp only [if_neg hq]

end Insert

theorem Tallied.insert {agg : StakeAggregator α} {envelope : SignedTransactionEffects α} (hagg : agg.Tallied committee) :
    (agg.insert committee envelope).2.Tallied committee := by
  by_cases hepoch : envelope.authSig.epoch = committee.epoch
  · cases h : agg.data.lookup envelope.authSig.authority with
    | some old => rwa [insert_of_lookup_eq_some committee hepoch h]
    | none =>
      by_cases hw : committee.weight envelope.authSig.authority = 0
      · rw [insert_of_weight_eq_zero committee hepoch h hw]
        have := hagg.insertGeneric committee hepoch
        simpa [StakeAggregator.insertGeneric, h, hw] using this
      · rw [hagg.insert_of_weight_pos committee hepoch h (Nat.pos_of_ne_zero hw)]
        have := hagg.insertGeneric committee hepoch
        simp only [StakeAggregator.insertGeneric, h, Nat.pos_of_ne_zero hw, if_true] at this
        split_ifs
        exacts [this, this.prune committee, this, this]
  · rwa [insert_of_epoch_ne committee hepoch]

theorem Tallied.insertAll {agg : StakeAggregator α} (hagg : agg.Tallied committee)
    (envelopes : List (SignedTransactionEffects α)) : (agg.insertAll committee envelopes).Tallied committee := by
  induction envelopes generalizing agg with
  | nil => exact hagg
  | cons envelope envelopes ih => exact ih hagg.insert

def vote (a : Fin 5) (verifies : Bool) : SignedTransactionEffects (Fin 5) := ⟨⟨0, none, [], []⟩, ⟨0, a, verifies⟩⟩

end StakeAggregator

end Iota.Core.AuthorityAggregator
