import Mathlib
import Iota.Consensus.BaseCommitter

/-! Why the commit rule never finds two certified blocks in one slot.  Two
quorums of stake meet in an authority that does not equivocate; such an
authority has one block per slot, and a block supports at most one block of a
slot, because `find_supported_block` is a function.  Where the two votes are
blocks of different rounds, the later one reaches the earlier one through its
author's chain of previous blocks, and support is inherited along that chain. -/

namespace Iota.Consensus

open Iota.Lib.Weight

namespace Dag

variable (d : Dag)

/-- The authors of two distinct blocks at one slot. -/
def equivocators : Finset ℕ :=
  ((d.blocks.filter fun b => d.blocks.any fun b' => b'.slot == b.slot && b' != b).map
    VerifiedBlock.author).toFinset

/-- No block names two ancestors of one authority. -/
def AncestorAuthorsDistinct : Prop := ∀ b ∈ d.blocks, (b.ancestors.map BlockRef.author).Nodup

/-- Every block names its author's previous block first: an own block at least
as high as any own block below it. -/
def OwnPreviousFirst : Prop :=
  ∀ b ∈ d.blocks, ∀ p ∈ d.blocks, p.author = b.author → p.round < b.round →
    ∃ q ∈ d.blocks, b.ancestors.head? = some q.reference ∧ q.author = b.author ∧ p.round ≤ q.round

instance : Decidable d.AncestorAuthorsDistinct := inferInstanceAs (Decidable (∀ _ ∈ _, _))
instance : Decidable d.OwnPreviousFirst := inferInstanceAs (Decidable (∀ _ ∈ _, _))

/-- `q` is the first ancestor of `b`. -/
def FirstParent (b q : VerifiedBlock) : Prop := q ∈ d.blocks ∧ b.ancestors.head? = some q.reference

variable {d}

theorem nodup_blocks : d.blocks.Nodup :=
  d.sorted.imp fun h he => absurd (congrArg VerifiedBlock.reference he) (ne_of_lt h)

theorem slot_eq_iff {b b' : VerifiedBlock} : b.slot = b'.slot ↔ b.round = b'.round ∧ b.author = b'.author := by
  simp [VerifiedBlock.slot, Slot.ofRef, VerifiedBlock.reference]

theorem eq_of_slot_eq {b b' : VerifiedBlock} (hb : b ∈ d.blocks) (hb' : b' ∈ d.blocks)
    (hslot : b.slot = b'.slot) (h : b.author ∉ d.equivocators) : b = b' := by
  by_contra hne
  apply h
  simp only [equivocators, List.mem_toFinset, List.mem_map, List.mem_filter, List.any_eq_true]
  exact ⟨b, ⟨hb, b', hb', by simp [hslot.symm, Ne.symm hne]⟩, rfl⟩

theorem round_le_of_firstChain {b q : VerifiedBlock} (h : Relation.ReflTransGen d.FirstParent b q) :
    q.round ≤ b.round := by
  induction h with
  | refl => exact le_refl _
  | tail _ hstep ih =>
    obtain ⟨-, hhead⟩ := hstep
    have := VerifiedBlock.round_lt_of_head? hhead
    simp only [VerifiedBlock.reference_round] at this
    omega

theorem firstChain_of_not_mem_equivocators {a : ℕ} (ha : a ∉ d.equivocators)
    (hprev : d.OwnPreviousFirst) {v₁ v₂ : VerifiedBlock} (hv₁ : v₁ ∈ d.blocks) (hv₂ : v₂ ∈ d.blocks)
    (h₁ : v₁.author = a) (h₂ : v₂.author = a) (hle : v₁.round ≤ v₂.round) :
    Relation.ReflTransGen d.FirstParent v₂ v₁ := by
  induction hn : v₂.round using Nat.strong_induction_on generalizing v₂ with
  | _ n ih =>
    rcases Nat.lt_or_ge v₁.round v₂.round with hlt | hge
    · -- step to the previous own block, which is still at or above `v₁`
      obtain ⟨q, hq, hhead, hqa, hqr⟩ := hprev v₂ hv₂ v₁ hv₁ (by rw [h₁, h₂]) hlt
      have hqv := VerifiedBlock.round_lt_of_head? hhead
      simp only [VerifiedBlock.reference_round] at hqv
      exact Relation.ReflTransGen.head ⟨hq, hhead⟩
        (ih q.round (by omega) hq (by rw [hqa, h₂]) hqr rfl)
    · -- same round: one block per slot
      have heq : v₁ = v₂ := eq_of_slot_eq hv₁ hv₂
        (Iff.mpr slot_eq_iff ⟨by omega, by rw [h₁, h₂]⟩) (by rw [h₁]; exact ha)
      rw [heq]

end Dag

namespace BaseCommitter

variable {self : BaseCommitter} {d : Dag}

theorem findSupportedBlock_of_firstChain {s : Slot} {b q : VerifiedBlock} {x : BlockRef}
    (h : Relation.ReflTransGen d.FirstParent b q) (hqs : s.round < q.round)
    (hq : findSupportedBlock d s q = some x) : findSupportedBlock d s b = some x := by
  induction h using Relation.ReflTransGen.head_induction_on with
  | refl => exact hq
  | head hstep hrest ih =>
    obtain ⟨hmem, hhead⟩ := hstep
    exact findSupportedBlock_of_head hmem hhead (lt_of_lt_of_le hqs (Dag.round_le_of_firstChain hrest)) ih

theorem voteOf_spec {L : VerifiedBlock} {r : BlockRef} (h : voteOf d L r = true) :
    ∃ v, d.getBlock r = some v ∧ findSupportedBlock d L.slot v = some L.reference := by
  unfold voteOf at h
  split at h
  · rename_i v hv
    exact ⟨v, hv, by simpa [isVote, VerifiedBlock.slot] using h⟩
  · contradiction

theorem exists_vote_of_mem {C L : VerifiedBlock} {a : ℕ}
    (h : a ∈ ((C.ancestors.filter (voteOf d L)).map BlockRef.author).toFinset) :
    ∃ r ∈ C.ancestors, r.author = a ∧ voteOf d L r = true := by
  simp only [List.mem_toFinset, List.mem_map, List.mem_filter] at h
  obtain ⟨r, ⟨hr, hv⟩, rfl⟩ := h
  exact ⟨r, hr, rfl, hv⟩

theorem eq_of_certifies_of_certifies {C L₁ L₂ : VerifiedBlock}
    (hC : (C.ancestors.map BlockRef.author).Nodup) (hL₁ : L₁ ∈ d.blocks) (hL₂ : L₂ ∈ d.blocks)
    (hslot : L₁.slot = L₂.slot) (h₁ : Certifies self d C L₁) (h₂ : Certifies self d C L₂) :
    L₁ = L₂ := by
  obtain ⟨a, ha⟩ := self.committee.quorum_inter_nonempty h₁ h₂
  obtain ⟨r₁, hr₁, ha₁, hv₁⟩ := exists_vote_of_mem (Finset.mem_inter.mp ha).1
  obtain ⟨r₂, hr₂, ha₂, hv₂⟩ := exists_vote_of_mem (Finset.mem_inter.mp ha).2
  have hr : r₁ = r₂ := List.inj_on_of_nodup_map hC hr₁ hr₂ (by rw [ha₁, ha₂])
  subst hr
  obtain ⟨v, hv, hs₁⟩ := voteOf_spec hv₁
  obtain ⟨v', hv', hs₂⟩ := voteOf_spec hv₂
  rw [hv, Option.some_inj] at hv'
  subst hv'
  rw [hslot, hs₂, Option.some_inj] at hs₁
  exact Dag.reference_inj hL₁ hL₂ hs₁.symm

theorem eq_of_certified {s : Slot} {C₁ C₂ L₁ L₂ : VerifiedBlock}
    (hequiv : weight self.committee.stake d.equivocators < self.committee.validityThreshold)
    (hprev : d.OwnPreviousFirst) (hL₁ : L₁ ∈ d.blocks) (hL₂ : L₂ ∈ d.blocks)
    (hs₁ : L₁.slot = s) (hs₂ : L₂.slot = s)
    (h₁ : Certifies self d C₁ L₁) (h₂ : Certifies self d C₂ L₂) : L₁ = L₂ := by
  obtain ⟨a, ha, hhonest⟩ := self.committee.exists_mem_quorum_inter h₁ h₂ hequiv
  obtain ⟨r₁, -, ha₁, hvote₁⟩ := exists_vote_of_mem (Finset.mem_inter.mp ha).1
  obtain ⟨r₂, -, ha₂, hvote₂⟩ := exists_vote_of_mem (Finset.mem_inter.mp ha).2
  obtain ⟨v₁, hg₁, hf₁⟩ := voteOf_spec hvote₁
  obtain ⟨v₂, hg₂, hf₂⟩ := voteOf_spec hvote₂
  rw [hs₁] at hf₁
  rw [hs₂] at hf₂
  have hv₁ := Dag.mem_of_getBlock hg₁
  have hv₂ := Dag.mem_of_getBlock hg₂
  have hva₁ : v₁.author = a := by rw [← ha₁, ← Dag.getBlock_reference hg₁]; rfl
  have hva₂ : v₂.author = a := by rw [← ha₂, ← Dag.getBlock_reference hg₂]; rfl
  -- the higher vote inherits the support of the lower one
  have key : ∀ {w₁ w₂ : VerifiedBlock} {x₁ x₂ : BlockRef}, w₁ ∈ d.blocks → w₂ ∈ d.blocks →
      w₁.author = a → w₂.author = a → w₁.round ≤ w₂.round →
      findSupportedBlock d s w₁ = some x₁ → findSupportedBlock d s w₂ = some x₂ → x₁ = x₂ := by
    intro w₁ w₂ x₁ x₂ hw₁ hw₂ hwa₁ hwa₂ hle hx₁ hx₂
    have hchain := Dag.firstChain_of_not_mem_equivocators hhonest hprev hw₁ hw₂ hwa₁ hwa₂ hle
    have hinh := findSupportedBlock_of_firstChain hchain (findSupportedBlock_slot hx₁).2 hx₁
    rw [hx₂, Option.some_inj] at hinh
    exact hinh.symm
  have href : L₁.reference = L₂.reference := by
    rcases le_total v₁.round v₂.round with hle | hle
    · exact key hv₁ hv₂ hva₁ hva₂ hle hf₁ hf₂
    · exact (key hv₂ hv₁ hva₂ hva₁ hle hf₂ hf₁).symm
  exact Dag.reference_inj hL₁ hL₂ href

theorem eq_of_enoughLeaderSupport {decisionRound : ℕ} {L₁ L₂ : VerifiedBlock}
    (hequiv : weight self.committee.stake d.equivocators < self.committee.validityThreshold)
    (hdistinct : d.AncestorAuthorsDistinct) (hL₁ : L₁ ∈ d.blocks) (hL₂ : L₂ ∈ d.blocks)
    (hslot : L₁.slot = L₂.slot)
    (h₁ : enoughLeaderSupport self d decisionRound L₁ = true)
    (h₂ : enoughLeaderSupport self d decisionRound L₂ = true) : L₁ = L₂ := by
  rw [enoughLeaderSupport_iff] at h₁ h₂
  obtain ⟨a, ha, hhonest⟩ := self.committee.exists_mem_quorum_inter h₁ h₂ hequiv
  have hmem : ∀ {L : VerifiedBlock},
      a ∈ (((d.getUncommittedBlocksAtRound decisionRound).filter
        (fun C => decide (Certifies self d C L))).map VerifiedBlock.author).toFinset →
      ∃ C ∈ d.blocks, C.round = decisionRound ∧ C.author = a ∧ Certifies self d C L := by
    intro L h
    simp only [List.mem_toFinset, List.mem_map, List.mem_filter, Dag.mem_getUncommittedBlocksAtRound,
      decide_eq_true_eq] at h
    obtain ⟨C, ⟨⟨hC, hCr⟩, hcert⟩, hCa⟩ := h
    exact ⟨C, hC, hCr, hCa, hcert⟩
  obtain ⟨C₁, hC₁, hr₁, ha₁, hc₁⟩ := hmem (Finset.mem_inter.mp ha).1
  obtain ⟨C₂, hC₂, hr₂, ha₂, hc₂⟩ := hmem (Finset.mem_inter.mp ha).2
  -- both certificates are the non-equivocating author's block of the decision round
  have hC : C₁ = C₂ := Dag.eq_of_slot_eq hC₁ hC₂
    (Iff.mpr Dag.slot_eq_iff ⟨by rw [hr₁, hr₂], by rw [ha₁, ha₂]⟩) (by rw [ha₁]; exact hhonest)
  subst hC
  exact eq_of_certifies_of_certifies (hdistinct C₁ hC₁) hL₁ hL₂ hslot hc₁ hc₂

theorem length_le_one_of_forall_eq {α : Type*} {l : List α} (hl : l.Nodup)
    (h : ∀ x ∈ l, ∀ y ∈ l, x = y) : l.length ≤ 1 := by
  match l, hl with
  | [], _ => simp
  | [_], _ => simp
  | x :: y :: t, hl =>
    have hxy := h x List.mem_cons_self y (List.mem_cons_of_mem _ List.mem_cons_self)
    subst hxy
    simp at hl

theorem tryDirectDecide_ne_none_of_length {leader : Slot}
    (h : ((d.getUncommittedBlocksAtSlot leader).filter fun l =>
      self.enoughLeaderSupport d (self.decisionRound (self.waveNumber leader.round)) l).length ≤ 1) :
    self.tryDirectDecide d leader ≠ none := by
  unfold tryDirectDecide
  dsimp only
  split
  · simp
  · rw [if_neg (by simpa using h)]
    simp

theorem decideLeaderFromAnchor_ne_none_of_length {anchor : VerifiedBlock} {leaderSlot : Slot}
    (h : ((d.getUncommittedBlocksAtSlot leaderSlot).filter fun l =>
      self.anyCertificate d l (fun _ => none)
        (d.ancestorsAtRound anchor (self.decisionRound (self.waveNumber leaderSlot.round)))).length ≤ 1) :
    self.decideLeaderFromAnchor d anchor leaderSlot ≠ none := by
  unfold decideLeaderFromAnchor
  dsimp only
  rw [if_neg (by simpa using h)]
  split <;> simp

/-- No two certified leaders in a slot: at most one block of the slot has a
quorum of certificates at the decision round, at most one has a certified link
to any anchor, and so neither `More than one certified block` panic fires. -/
theorem certified_leader_unique (self : BaseCommitter) (d : Dag)
    (hequiv : weight self.committee.stake d.equivocators < self.committee.validityThreshold)
    (hdistinct : d.AncestorAuthorsDistinct) (hprev : d.OwnPreviousFirst) (leaderSlot : Slot) :
    ((d.getUncommittedBlocksAtSlot leaderSlot).filter fun l =>
        self.enoughLeaderSupport d (self.decisionRound (self.waveNumber leaderSlot.round)) l).length ≤ 1 ∧
      (∀ anchor : VerifiedBlock,
        ((d.getUncommittedBlocksAtSlot leaderSlot).filter fun l =>
          self.anyCertificate d l (fun _ => none)
            (d.ancestorsAtRound anchor (self.decisionRound (self.waveNumber leaderSlot.round)))).length ≤ 1) ∧
      self.tryDirectDecide d leaderSlot ≠ none ∧
      ∀ anchor : VerifiedBlock, self.decideLeaderFromAnchor d anchor leaderSlot ≠ none := by
  have hnodup : (d.getUncommittedBlocksAtSlot leaderSlot).Nodup := Dag.nodup_blocks.filter _
  have hdirect : ((d.getUncommittedBlocksAtSlot leaderSlot).filter fun l =>
      self.enoughLeaderSupport d (self.decisionRound (self.waveNumber leaderSlot.round)) l).length
        ≤ 1 := length_le_one_of_forall_eq (hnodup.filter _) (by
    intro x hx y hy
    simp only [List.mem_filter, Dag.mem_getUncommittedBlocksAtSlot] at hx hy
    exact eq_of_enoughLeaderSupport hequiv hdistinct hx.1.1 hy.1.1 (by rw [hx.1.2, hy.1.2])
      hx.2 hy.2)
  have hanchor : ∀ anchor : VerifiedBlock,
      ((d.getUncommittedBlocksAtSlot leaderSlot).filter fun l =>
        self.anyCertificate d l (fun _ => none)
          (d.ancestorsAtRound anchor (self.decisionRound (self.waveNumber leaderSlot.round)))).length ≤ 1 := by
    intro anchor
    refine length_le_one_of_forall_eq (hnodup.filter _) ?_
    intro x hx y hy
    simp only [List.mem_filter, Dag.mem_getUncommittedBlocksAtSlot] at hx hy
    obtain ⟨C₁, -, hc₁⟩ := (anyCertificate_iff _ (VoteCache.sound_empty d x)).mp hx.2
    obtain ⟨C₂, -, hc₂⟩ := (anyCertificate_iff _ (VoteCache.sound_empty d y)).mp hy.2
    exact eq_of_certified hequiv hprev hx.1.1 hy.1.1 hx.1.2 hy.1.2 hc₁ hc₂
  exact ⟨hdirect, hanchor, tryDirectDecide_ne_none_of_length hdirect,
    fun anchor => decideLeaderFromAnchor_ne_none_of_length (hanchor anchor)⟩

/-- Four authorities of stake one, their genesis blocks, and one round in which
each authority names its own genesis block first and two others after it. -/
def fourCommittee : Committee :=
  ⟨[⟨1⟩, ⟨1⟩, ⟨1⟩, ⟨1⟩], Committee.four_equal_ne_nil, Committee.four_equal_total_ne_zero⟩

def fourCommitter : BaseCommitter := ⟨fourCommittee, fun r _ => r % 4, ⟨3, 0, 0⟩, le_refl _⟩

def fourGenesis (i : ℕ) : VerifiedBlock := ⟨0, i, 0, 0, [], VerifiedBlock.genesis_ancestors_round_lt⟩

def fourRoundOne (i : ℕ) : VerifiedBlock :=
  ⟨1, i, 1, 1, [⟨0, i, 0⟩, ⟨0, (i + 1) % 4, 0⟩, ⟨0, (i + 2) % 4, 0⟩], by simp⟩

def fourDag : Dag where
  blocks := (List.range 4).map fourGenesis ++ (List.range 4).map fourRoundOne
  sorted := by decide
  ancestors_mem := by decide

theorem certified_leader_unique_fourDag :
    weight fourCommitter.committee.stake fourDag.equivocators <
        fourCommitter.committee.validityThreshold ∧
      fourDag.AncestorAuthorsDistinct ∧ fourDag.OwnPreviousFirst ∧
      fourCommitter.tryDirectDecide fourDag ⟨0, 0⟩ ≠ none ∧
      ∀ anchor, fourCommitter.decideLeaderFromAnchor fourDag anchor ⟨0, 0⟩ ≠ none := by
  have h₁ : weight fourCommitter.committee.stake fourDag.equivocators <
      fourCommitter.committee.validityThreshold := by decide
  have h₂ : fourDag.AncestorAuthorsDistinct := by decide
  have h₃ : fourDag.OwnPreviousFirst := by decide
  exact ⟨h₁, h₂, h₃, (certified_leader_unique fourCommitter fourDag h₁ h₂ h₃ ⟨0, 0⟩).2.2⟩

end BaseCommitter

end Iota.Consensus
