import Iota.Consensus.Committee
import Iota.Consensus.Dag

/-! The bare commit rule of `consensus/core/src/base_committer.rs`.  The
committer reads the DAG through the lookups of `Dag`; the leader schedule
enters as its election function, since no result here depends on how leaders
are chosen.  A `panic!` of the source is a `none` of the model. -/

namespace Iota.Consensus

/-- `commit::LeaderStatus`. -/
inductive LeaderStatus
  | commit (block : VerifiedBlock)
  | skip (slot : Slot)
  | undecided (slot : Slot)
  deriving DecidableEq

namespace LeaderStatus

def round : LeaderStatus → ℕ
  | commit b => b.round
  | skip s => s.round
  | undecided s => s.round

def isDecided : LeaderStatus → Bool
  | commit _ => true
  | skip _ => true
  | undecided _ => false

end LeaderStatus

def MINIMUM_WAVE_LENGTH : ℕ := 3
def DEFAULT_WAVE_LENGTH : ℕ := MINIMUM_WAVE_LENGTH

structure BaseCommitterOptions where
  waveLength : ℕ
  leaderOffset : ℕ
  roundOffset : ℕ
  deriving DecidableEq, Repr

/-- `BaseCommitter::new` asserts `wave_length >= MINIMUM_WAVE_LENGTH`. -/
structure BaseCommitter where
  committee : Committee
  electLeaderOf : ℕ → ℕ → ℕ
  options : BaseCommitterOptions
  waveLength_ge : MINIMUM_WAVE_LENGTH ≤ options.waveLength

/-- The vote cache `all_votes : HashMap<BlockRef, bool>` of `is_certificate`. -/
abbrev VoteCache := BlockRef → Option Bool

def VoteCache.insert (cache : VoteCache) (r : BlockRef) (v : Bool) : VoteCache :=
  fun r' => if r' = r then some v else cache r'

namespace BaseCommitter

variable (self : BaseCommitter) (d : Dag)

def leaderRound (wave : ℕ) : ℕ := wave * self.options.waveLength + self.options.roundOffset

def decisionRound (wave : ℕ) : ℕ :=
  wave * self.options.waveLength + self.options.waveLength - 1 + self.options.roundOffset

def waveNumber (round : ℕ) : ℕ := (round - self.options.roundOffset) / self.options.waveLength

def electLeader (round : ℕ) : Option Slot :=
  if self.leaderRound (self.waveNumber round) ≠ round then none
  else some ⟨round, self.electLeaderOf round self.options.leaderOffset⟩

/-- `find_supported_block`: the depth-first search, in ancestor order, for the
block of `leaderSlot` that `b` supports.  Weak links at or below the leader
round are skipped. -/
def findSupportedBlock (leaderSlot : Slot) (b : VerifiedBlock) : Option BlockRef :=
  if b.round < leaderSlot.round then none
  else
    b.ancestors.attach.findSome? fun ⟨a, _ha⟩ =>
      if Slot.ofRef a = leaderSlot then some a
      else if a.round ≤ leaderSlot.round then none
      else
        match _hg : d.getBlock a with
        | some ab => findSupportedBlock leaderSlot ab
        -- `panic!("Block not found in storage")`: unreachable, the DAG is causally closed
        | none => none
termination_by b.round
decreasing_by exact Dag.getBlock_round_lt _ha _hg

def isVote (potentialVote leaderBlock : VerifiedBlock) : Bool :=
  findSupportedBlock d (Slot.ofRef leaderBlock.reference) potentialVote == some leaderBlock.reference

/-- One lookup of `is_certificate`: the cached answer, or the computed one,
which is then cached.  A reference missing from the DAG is a non-vote, as the
source has it when GC is enabled (it panics otherwise); in a causally closed
DAG it never happens. -/
def lookupVote (leaderBlock : VerifiedBlock) (cache : VoteCache) (r : BlockRef) :
    Bool × VoteCache :=
  match cache r with
  | some v => (v, cache)
  | none =>
    let v := match d.getBlock r with
      | some potentialVote => isVote d potentialVote leaderBlock
      | none => false
    (v, cache.insert r v)

def isCertificateLoop (leaderBlock : VerifiedBlock) :
    StakeAggregator .quorum → VoteCache → List BlockRef → Bool × VoteCache
  | _, cache, [] => (false, cache)
  | agg, cache, r :: rest =>
    let (v, cache') := lookupVote d leaderBlock cache r
    if v then
      let (agg', reached) := agg.add r.author self.committee
      if reached then (true, cache') else isCertificateLoop leaderBlock agg' cache' rest
    else isCertificateLoop leaderBlock agg cache' rest

/-- `is_certificate`: the ancestors of `potentialCertificate` that vote for
`leaderBlock` reach a quorum of stake.  The cache is threaded through. -/
def isCertificate (potentialCertificate leaderBlock : VerifiedBlock) (cache : VoteCache) :
    Bool × VoteCache :=
  isCertificateLoop self d leaderBlock .new cache potentialCertificate.ancestors

/-- `potential_certificates.iter().any(|c| self.is_certificate(c, leader_block, &mut all_votes))`. -/
def anyCertificate (leaderBlock : VerifiedBlock) : VoteCache → List VerifiedBlock → Bool
  | _, [] => false
  | cache, c :: rest =>
    let (isCert, cache') := isCertificate self d c leaderBlock cache
    if isCert then true else anyCertificate leaderBlock cache' rest

def decideLeaderFromAnchor (anchor : VerifiedBlock) (leaderSlot : Slot) : Option LeaderStatus :=
  let leaderBlocks := d.getUncommittedBlocksAtSlot leaderSlot
  let wave := self.waveNumber leaderSlot.round
  let decisionRound := self.decisionRound wave
  let potentialCertificates := d.ancestorsAtRound anchor decisionRound
  let certifiedLeaderBlocks :=
    leaderBlocks.filter fun leaderBlock => anyCertificate self d leaderBlock (fun _ => none) potentialCertificates
  -- `panic!("More than one certified block at wave {wave} from leader {leader_slot}")`
  if certifiedLeaderBlocks.length > 1 then none
  else
    match certifiedLeaderBlocks.getLast? with
    | some certified => some (.commit certified)
    | none => some (.skip leaderSlot)

def enoughLeaderBlameLoop (leader : ℕ) : StakeAggregator .quorum → List VerifiedBlock → Bool
  | _, [] => false
  | agg, votingBlock :: rest =>
    if votingBlock.ancestors.all (fun ancestor => ancestor.author ≠ leader) then
      let (agg', reached) := agg.add votingBlock.author self.committee
      if reached then true else enoughLeaderBlameLoop leader agg' rest
    else enoughLeaderBlameLoop leader agg rest

def enoughLeaderBlame (votingRound leader : ℕ) : Bool :=
  enoughLeaderBlameLoop self leader .new (d.getUncommittedBlocksAtRound votingRound)

def enoughLeaderSupportLoop (leaderBlock : VerifiedBlock) :
    StakeAggregator .quorum → VoteCache → List VerifiedBlock → Bool
  | _, _, [] => false
  | agg, cache, decisionBlock :: rest =>
    let (isCert, cache') := isCertificate self d decisionBlock leaderBlock cache
    if isCert then
      let (agg', reached) := agg.add decisionBlock.author self.committee
      if reached then true else enoughLeaderSupportLoop leaderBlock agg' cache' rest
    else enoughLeaderSupportLoop leaderBlock agg cache' rest

def enoughLeaderSupport (decisionRound : ℕ) (leaderBlock : VerifiedBlock) : Bool :=
  let decisionBlocks := d.getUncommittedBlocksAtRound decisionRound
  -- quickly reject if the decision round holds less than a quorum of stake
  let totalStake := (decisionBlocks.map fun b => self.committee.stake b.author).sum
  if !self.committee.reachedQuorum totalStake then false
  else enoughLeaderSupportLoop self d leaderBlock .new (fun _ => none) decisionBlocks

def tryDirectDecide (leader : Slot) : Option LeaderStatus :=
  let votingRound := leader.round + 1
  if self.enoughLeaderBlame d votingRound leader.authority then some (.skip leader)
  else
    let wave := self.waveNumber leader.round
    let decisionRound := self.decisionRound wave
    let leaderBlocks := d.getUncommittedBlocksAtSlot leader
    let leadersWithEnoughSupport :=
      (leaderBlocks.filter fun l => self.enoughLeaderSupport d decisionRound l).map LeaderStatus.commit
    -- `panic!("More than one certified block for {leader}")`
    if leadersWithEnoughSupport.length > 1 then none
    else some (leadersWithEnoughSupport.getLast?.getD (.undecided leader))

def tryIndirectDecideLoop (leaderSlot : Slot) : List LeaderStatus → Option LeaderStatus
  | [] => some (.undecided leaderSlot)
  | .commit anchor :: _ => self.decideLeaderFromAnchor d anchor leaderSlot
  | .skip _ :: rest => tryIndirectDecideLoop leaderSlot rest
  | .undecided _ :: _ => some (.undecided leaderSlot)

def tryIndirectDecide (leaderSlot : Slot) (leaders : List LeaderStatus) : Option LeaderStatus :=
  self.tryIndirectDecideLoop d leaderSlot
    (leaders.filter fun x => leaderSlot.round + self.options.waveLength ≤ x.round)

/-! ### Spec lemmas

Each loop above is the stake tally `reachesWhileAdding` run over the authors
of the elements it counts; the search is a `findSome?` over the ancestors. -/

open Iota.Lib.Weight

variable {self d}

/-- The body of the search loop, without the membership proof `attach` carries. -/
def supportStep (d : Dag) (leaderSlot : Slot) (a : BlockRef) : Option BlockRef :=
  if Slot.ofRef a = leaderSlot then some a
  else if a.round ≤ leaderSlot.round then none
  else (d.getBlock a).bind (findSupportedBlock d leaderSlot)

theorem findSupportedBlock_eq (leaderSlot : Slot) (b : VerifiedBlock) :
    findSupportedBlock d leaderSlot b =
      if b.round < leaderSlot.round then none
      else b.ancestors.findSome? (supportStep d leaderSlot) := by
  rw [findSupportedBlock]
  split
  · rfl
  · conv_rhs => rw [← List.attach_map_subtype_val b.ancestors, List.findSome?_map]
    congr 1
    funext ⟨a, ha⟩
    simp only [Function.comp_apply, supportStep]
    split
    · rfl
    · split
      · rfl
      · split <;> simp_all

theorem findSupportedBlock_spec {s : Slot} {b : VerifiedBlock} {x : BlockRef}
    (h : findSupportedBlock d s b = some x) :
    s.round ≤ b.round ∧ ∃ a ∈ b.ancestors, supportStep d s a = some x := by
  rw [findSupportedBlock_eq] at h
  split at h
  · contradiction
  · exact ⟨by omega, List.exists_of_findSome?_eq_some h⟩

theorem findSupportedBlock_slot {s : Slot} {b : VerifiedBlock} {x : BlockRef}
    (h : findSupportedBlock d s b = some x) : Slot.ofRef x = s ∧ s.round < b.round := by
  induction hn : b.round using Nat.strong_induction_on generalizing b with
  | _ n ih =>
    obtain ⟨-, a, ha, hstep⟩ := findSupportedBlock_spec h
    have hab := b.round_lt_of_mem_ancestors ha
    unfold supportStep at hstep
    split at hstep
    · rename_i hslot
      cases hstep
      refine ⟨hslot, ?_⟩
      rw [← hslot, Slot.ofRef_round]
      omega
    · split at hstep
      · contradiction
      · obtain ⟨ab, hg, hab'⟩ := Option.bind_eq_some_iff.mp hstep
        have hlt := Dag.getBlock_round_lt ha hg
        exact ⟨(ih ab.round (by omega) hab' rfl).1, by omega⟩

theorem findSupportedBlock_of_head {s : Slot} {b q : VerifiedBlock} {x : BlockRef}
    (hq : q ∈ d.blocks) (hhead : b.ancestors.head? = some q.reference) (hqs : s.round < q.round)
    (h : findSupportedBlock d s q = some x) : findSupportedBlock d s b = some x := by
  obtain ⟨rest, hrest⟩ : ∃ rest, b.ancestors = q.reference :: rest := by
    cases hb : b.ancestors with
    | nil => simp [hb] at hhead
    | cons a rest =>
      rw [hb, List.head?_cons, Option.some_inj] at hhead
      exact ⟨rest, by rw [hhead]⟩
  have hqb : q.round < b.round :=
    b.round_lt_of_mem_ancestors (by rw [hrest]; exact List.mem_cons_self)
  have hstep : supportStep d s q.reference = some x := by
    have hslot : Slot.ofRef q.reference ≠ s := fun he => by
      have := congrArg Slot.round he
      simp at this
      omega
    simp only [supportStep, hslot, if_false, VerifiedBlock.reference_round, Dag.getBlock_of_mem hq,
      Option.bind_some, h]
    rw [if_neg (by omega)]
  rw [findSupportedBlock_eq, if_neg (by omega), hrest, List.findSome?_cons, hstep]

/-- A link from a block to its first ancestor, the author's previous block, held in the
DAG and above the leader slot's round. -/
def FirstAncestorAbove (d : Dag) (s : Slot) (b q : VerifiedBlock) : Prop :=
  q ∈ d.blocks ∧ b.ancestors.head? = some q.reference ∧ s.round < q.round

/-- Support is inherited down an author's chain: a block supports what any block it
reaches through first ancestors above the slot's round supports. -/
theorem findSupportedBlock_of_firstAncestorChain {s : Slot} {a b : VerifiedBlock} {x : BlockRef}
    (hchain : Relation.ReflTransGen (FirstAncestorAbove d s) b a) (h : findSupportedBlock d s a = some x) :
    findSupportedBlock d s b = some x := by
  induction hchain using Relation.ReflTransGen.head_induction_on with
  | refl => exact h
  | head hlink _ ih =>
    obtain ⟨hq, hhead, hround⟩ := hlink
    exact findSupportedBlock_of_head hq hhead hround ih

/-- Two genesis blocks; author 1's round-one block names its own genesis block first and
author 0's after it, and its round-two block names the round-one block. -/
def chainGenesis (i : ℕ) : VerifiedBlock := ⟨0, i, 0, 0, [], VerifiedBlock.genesis_ancestors_round_lt⟩

def chainRoundOne : VerifiedBlock := ⟨1, 1, 1, 1, [⟨0, 1, 0⟩, ⟨0, 0, 0⟩], by simp⟩

def chainRoundTwo : VerifiedBlock := ⟨2, 1, 2, 2, [⟨1, 1, 1⟩], by decide⟩

def chainDag : Dag where
  blocks := [chainGenesis 0, chainGenesis 1, chainRoundOne, chainRoundTwo]
  sorted := by decide
  ancestors_mem := by decide

theorem findSupportedBlock_of_firstAncestorChain_chainDag :
    Relation.ReflTransGen (FirstAncestorAbove chainDag ⟨0, 0⟩) chainRoundTwo chainRoundOne ∧
      findSupportedBlock chainDag ⟨0, 0⟩ chainRoundOne = some ⟨0, 0, 0⟩ ∧
      findSupportedBlock chainDag ⟨0, 0⟩ chainRoundTwo = some ⟨0, 0, 0⟩ := by
  have hchain : Relation.ReflTransGen (FirstAncestorAbove chainDag ⟨0, 0⟩) chainRoundTwo chainRoundOne :=
    .single ⟨by decide, rfl, by decide⟩
  -- the round-one block skips its own genesis block, at the slot's round, and finds author 0's
  have hsupport : findSupportedBlock chainDag ⟨0, 0⟩ chainRoundOne = some ⟨0, 0, 0⟩ := by
    rw [findSupportedBlock_eq]
    decide
  exact ⟨hchain, hsupport, findSupportedBlock_of_firstAncestorChain hchain hsupport⟩

/-- What a reference contributes to `is_certificate`: whether the block it
names votes for the leader block. -/
def voteOf (d : Dag) (leaderBlock : VerifiedBlock) (r : BlockRef) : Bool :=
  match d.getBlock r with
  | some potentialVote => isVote d potentialVote leaderBlock
  | none => false

/-- Every cached answer is the answer the DAG gives. -/
def VoteCache.Sound (d : Dag) (leaderBlock : VerifiedBlock) (cache : VoteCache) : Prop :=
  ∀ r v, cache r = some v → v = voteOf d leaderBlock r

theorem VoteCache.sound_empty (d : Dag) (leaderBlock : VerifiedBlock) :
    VoteCache.Sound d leaderBlock (fun _ => none) := by
  intro r v h
  cases h

theorem lookupVote_fst {L : VerifiedBlock} {cache : VoteCache} (hc : VoteCache.Sound d L cache)
    (r : BlockRef) : (lookupVote d L cache r).1 = voteOf d L r := by
  unfold lookupVote
  split
  · rename_i v hv
    exact hc r v hv
  · rfl

theorem lookupVote_sound {L : VerifiedBlock} {cache : VoteCache} (hc : VoteCache.Sound d L cache)
    (r : BlockRef) : VoteCache.Sound d L (lookupVote d L cache r).2 := by
  unfold lookupVote
  split
  · exact hc
  · intro r' v h
    simp only [VoteCache.insert] at h
    split at h
    · rename_i hr
      cases h
      rw [hr]
      rfl
    · exact hc r' v h

theorem isCertificateLoop_sound {L : VerifiedBlock} (l : List BlockRef) :
    ∀ {agg : StakeAggregator .quorum} {cache : VoteCache}, VoteCache.Sound d L cache →
      VoteCache.Sound d L (isCertificateLoop self d L agg cache l).2 := by
  induction l with
  | nil => intro agg cache hc; exact hc
  | cons r rest ih =>
    intro agg cache hc
    have hc' := lookupVote_sound hc r
    simp only [isCertificateLoop]
    split
    · split
      · exact hc'
      · exact ih hc'
    · exact ih hc'

theorem isCertificateLoop_fst {L : VerifiedBlock} (l : List BlockRef) :
    ∀ {agg : StakeAggregator .quorum} {cache : VoteCache}, VoteCache.Sound d L cache →
      agg.Tallies self.committee →
      (isCertificateLoop self d L agg cache l).1 =
        reachesWhileAdding self.committee.stake self.committee.quorumThreshold agg.votes
          ((l.filter (voteOf d L)).map BlockRef.author) := by
  induction l with
  | nil => intro agg cache _ _; rfl
  | cons r rest ih =>
    intro agg cache hc hagg
    have hv := lookupVote_fst hc r
    have hc' := lookupVote_sound hc r
    simp only [isCertificateLoop, hv]
    by_cases hr : voteOf d L r = true
    · rw [if_pos hr, List.filter_cons_of_pos hr, List.map_cons, reachesWhileAdding,
        StakeAggregator.add_snd hagg]
      have hrec := ih hc' (StakeAggregator.tallies_add hagg r.author)
      rw [StakeAggregator.add_votes] at hrec
      by_cases hq : self.committee.quorumThreshold ≤
          weight self.committee.stake (insert r.author agg.votes)
      · simp [CommitteeThreshold.threshold, hq]
      · simp only [CommitteeThreshold.threshold, hq, decide_false, if_false]
        exact hrec
    · rw [if_neg hr, List.filter_cons_of_neg hr]
      exact ih hc' hagg

/-- A block certifies a leader block when the authors of its ancestors that vote
for the leader block hold a quorum of stake. -/
def Certifies (self : BaseCommitter) (d : Dag) (potentialCertificate leaderBlock : VerifiedBlock) :
    Prop :=
  self.committee.quorumThreshold ≤ weight self.committee.stake
    ((potentialCertificate.ancestors.filter (voteOf d leaderBlock)).map BlockRef.author).toFinset

instance (self : BaseCommitter) (d : Dag) (C L : VerifiedBlock) : Decidable (Certifies self d C L) :=
  inferInstanceAs (Decidable (_ ≤ _))

theorem reachesWhileAdding_new_iff (l : List ℕ) :
    reachesWhileAdding self.committee.stake self.committee.quorumThreshold
        (StakeAggregator.new : StakeAggregator .quorum).votes l = true ↔
      self.committee.quorumThreshold ≤ weight self.committee.stake l.toFinset := by
  rw [reachesWhileAdding_iff _ _ (by simp [StakeAggregator.new, Committee.quorumThreshold])]
  simp [StakeAggregator.new]

theorem isCertificate_iff {C L : VerifiedBlock} {cache : VoteCache} (hc : VoteCache.Sound d L cache) :
    (isCertificate self d C L cache).1 = true ↔ Certifies self d C L := by
  rw [isCertificate, isCertificateLoop_fst _ hc (StakeAggregator.tallies_new _)]
  exact reachesWhileAdding_new_iff _

theorem anyCertificate_iff {L : VerifiedBlock} (cs : List VerifiedBlock) :
    ∀ {cache : VoteCache}, VoteCache.Sound d L cache →
      (anyCertificate self d L cache cs = true ↔ ∃ C ∈ cs, Certifies self d C L) := by
  induction cs with
  | nil => intro cache _; simp [anyCertificate]
  | cons C rest ih =>
    intro cache hc
    have hC : (isCertificate self d C L cache).1 = true ↔ Certifies self d C L := isCertificate_iff hc
    have hc' : VoteCache.Sound d L (isCertificate self d C L cache).2 := isCertificateLoop_sound _ hc
    simp only [anyCertificate]
    split
    · rename_i hcert
      simp only [true_iff]
      exact ⟨C, List.mem_cons_self, hC.mp hcert⟩
    · rename_i hcert
      rw [ih hc']
      constructor
      · rintro ⟨C', hC', hcert'⟩
        exact ⟨C', List.mem_cons_of_mem _ hC', hcert'⟩
      · rintro ⟨C', hC', hcert'⟩
        rcases List.mem_cons.mp hC' with rfl | hC'
        · exact absurd (hC.mpr hcert') hcert
        · exact ⟨C', hC', hcert'⟩

theorem enoughLeaderSupportLoop_eq {L : VerifiedBlock} (l : List VerifiedBlock) :
    ∀ {agg : StakeAggregator .quorum} {cache : VoteCache}, VoteCache.Sound d L cache →
      agg.Tallies self.committee →
      enoughLeaderSupportLoop self d L agg cache l =
        reachesWhileAdding self.committee.stake self.committee.quorumThreshold agg.votes
          ((l.filter (fun C => decide (Certifies self d C L))).map VerifiedBlock.author) := by
  induction l with
  | nil => intro agg cache _ _; rfl
  | cons C rest ih =>
    intro agg cache hc hagg
    have hC : (isCertificate self d C L cache).1 = true ↔ Certifies self d C L := isCertificate_iff hc
    have hc' : VoteCache.Sound d L (isCertificate self d C L cache).2 := isCertificateLoop_sound _ hc
    simp only [enoughLeaderSupportLoop]
    by_cases hcert : Certifies self d C L
    · rw [if_pos (hC.mpr hcert), List.filter_cons_of_pos (by simpa using hcert), List.map_cons,
        reachesWhileAdding, StakeAggregator.add_snd hagg]
      have hrec := ih hc' (StakeAggregator.tallies_add hagg C.author)
      rw [StakeAggregator.add_votes] at hrec
      by_cases hq : self.committee.quorumThreshold ≤
          weight self.committee.stake (insert C.author agg.votes)
      · simp [CommitteeThreshold.threshold, hq]
      · simp only [CommitteeThreshold.threshold, hq, decide_false, if_false]
        exact hrec
    · rw [if_neg (fun h => hcert (hC.mp h)), List.filter_cons_of_neg (by simpa using hcert)]
      exact ih hc' hagg

theorem enoughLeaderSupport_iff {decisionRound : ℕ} {L : VerifiedBlock} :
    enoughLeaderSupport self d decisionRound L = true ↔
      self.committee.quorumThreshold ≤ weight self.committee.stake
        (((d.getUncommittedBlocksAtRound decisionRound).filter
          (fun C => decide (Certifies self d C L))).map VerifiedBlock.author).toFinset := by
  unfold enoughLeaderSupport
  dsimp only
  split
  · rename_i hreject
    simp only [Bool.false_eq_true, false_iff, not_le]
    simp only [Committee.reachedQuorum, Bool.not_eq_eq_eq_not, Bool.not_true,
      decide_eq_false_iff_not, not_le] at hreject
    refine lt_of_le_of_lt ?_ hreject
    calc weight self.committee.stake
          (((d.getUncommittedBlocksAtRound decisionRound).filter _).map VerifiedBlock.author).toFinset
        ≤ weight self.committee.stake
          ((d.getUncommittedBlocksAtRound decisionRound).map VerifiedBlock.author).toFinset := by
          apply weight_mono
          intro a ha
          simp only [List.mem_toFinset, List.mem_map, List.mem_filter] at ha ⊢
          obtain ⟨C, ⟨hC, -⟩, rfl⟩ := ha
          exact ⟨C, hC, rfl⟩
      _ ≤ (((d.getUncommittedBlocksAtRound decisionRound).map VerifiedBlock.author).map
            self.committee.stake).sum := weight_toFinset_le_sum _ _
      _ = _ := by rw [List.map_map]; rfl
  · rw [enoughLeaderSupportLoop_eq _ (VoteCache.sound_empty d L) (StakeAggregator.tallies_new _)]
    exact reachesWhileAdding_new_iff _

/-- A voting-round block blames the leader when none of its ancestors is
authored by the leader. -/
def blames (leader : ℕ) (votingBlock : VerifiedBlock) : Bool :=
  votingBlock.ancestors.all (fun ancestor => ancestor.author ≠ leader)

end BaseCommitter

end Iota.Consensus
