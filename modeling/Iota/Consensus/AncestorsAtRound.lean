import Iota.Consensus.Dag

/-! `DagState::ancestors_at_round` is exact: for a block whose ancestors are held, it
returns, each once, the held blocks of the earlier round that the block reaches through
ancestor links.  The loop pops the highest linked reference and replaces it by the
ancestors of its block; the invariant `LinkedInv` says that every linked reference names a
reached block, and that every reached block of the earlier round lies below a linked one.
When the highest linked round is at or below the earlier round, a reached block of that
round can only lie below itself, since every link goes down a round. -/

namespace Iota.Consensus

namespace Dag

open Relation

variable {d : Dag}

/-- An ancestor link of the DAG: `a` names the held block `c` among its ancestors. -/
def AncestorLink (d : Dag) (a c : VerifiedBlock) : Prop := c ∈ d.blocks ∧ c.reference ∈ a.ancestors

theorem AncestorLink.round_lt {a c : VerifiedBlock} (h : AncestorLink d a c) : c.round < a.round := by
  simpa using a.round_lt_of_mem_ancestors h.2

theorem eq_or_round_lt_of_reflTransGen {a c : VerifiedBlock} (h : ReflTransGen (AncestorLink d) a c) :
    a = c ∨ c.round < a.round := by
  induction h with
  | refl => exact .inl rfl
  | tail _ hlink ih =>
    have hlt := hlink.round_lt
    right
    rcases ih with rfl | hab
    · exact hlt
    · omega

/-- What the `linked` set keeps for `laterBlock` and `earlierRound`. -/
structure LinkedInv (d : Dag) (laterBlock : VerifiedBlock) (earlierRound : ℕ) (linked : Finset BlockRef) :
    Prop where
  reached : ∀ y ∈ linked, ∃ c, d.getBlock y = some c ∧ TransGen (AncestorLink d) laterBlock c
  covers : ∀ c, c.round = earlierRound → TransGen (AncestorLink d) laterBlock c →
    ∃ y ∈ linked, ∃ cy, d.getBlock y = some cy ∧ ReflTransGen (AncestorLink d) cy c

variable {laterBlock : VerifiedBlock} {earlierRound : ℕ}

theorem linkedInv_start (hheld : ∀ a ∈ laterBlock.ancestors, ∃ c ∈ d.blocks, c.reference = a) :
    LinkedInv d laterBlock earlierRound laterBlock.ancestors.toFinset where
  reached y hy := by
    obtain ⟨c, hc, rfl⟩ := hheld y (List.mem_toFinset.mp hy)
    exact ⟨c, getBlock_of_mem hc, .single ⟨hc, List.mem_toFinset.mp hy⟩⟩
  covers c _ hreach := by
    obtain ⟨c₁, hlink, hrest⟩ := TransGen.head'_iff.mp hreach
    exact ⟨c₁.reference, List.mem_toFinset.mpr hlink.2, c₁, getBlock_of_mem hlink.1, hrest⟩

theorem LinkedInv.step {linked : Finset BlockRef} (hinv : LinkedInv d laterBlock earlierRound linked)
    (h : linked.Nonempty) (hround : earlierRound < (linked.max' h).round) {b : VerifiedBlock}
    (hg : d.getBlock (linked.max' h) = some b) :
    LinkedInv d laterBlock earlierRound (linked.erase (linked.max' h) ∪ b.ancestors.toFinset) where
  reached y hy := by
    rcases Finset.mem_union.mp hy with hy | hy
    · exact hinv.reached y (Finset.mem_of_mem_erase hy)
    · have hb := mem_of_getBlock hg
      obtain ⟨c, hc, rfl⟩ := d.ancestors_mem b hb y (List.mem_toFinset.mp hy)
      obtain ⟨b', hg', hreach⟩ := hinv.reached _ (linked.max'_mem h)
      rw [hg, Option.some_inj] at hg'
      subst hg'
      exact ⟨c, getBlock_of_mem hc, hreach.tail ⟨hc, List.mem_toFinset.mp hy⟩⟩
  covers c hc hreach := by
    obtain ⟨y, hy, cy, hgy, hpath⟩ := hinv.covers c hc hreach
    by_cases hym : y = linked.max' h
    · -- the popped reference: a block of the earlier round lies strictly below it
      subst hym
      rw [hg, Option.some_inj] at hgy
      subst hgy
      rcases hpath.cases_head with rfl | ⟨c₁, hlink, hrest⟩
      · rw [← getBlock_reference hg, VerifiedBlock.reference_round] at hround
        omega
      · exact ⟨c₁.reference, Finset.mem_union_right _ (List.mem_toFinset.mpr hlink.2), c₁,
          getBlock_of_mem hlink.1, hrest⟩
    · exact ⟨y, Finset.mem_union_left _ (Finset.mem_erase.mpr ⟨hym, hy⟩), cy, hgy, hpath⟩

theorem linkedInv_ancestorsAtRoundLoop :
    ∀ linked, LinkedInv d laterBlock earlierRound linked →
      LinkedInv d laterBlock earlierRound (d.ancestorsAtRoundLoop earlierRound linked) ∧
        ∀ y ∈ d.ancestorsAtRoundLoop earlierRound linked, y.round ≤ earlierRound := by
  intro linked
  fun_induction d.ancestorsAtRoundLoop earlierRound linked with
  | case1 linked h hstop =>
    intro hinv
    exact ⟨hinv, fun y hy => le_trans (BlockRef.round_le_of_le (linked.le_max' y hy)) hstop⟩
  | case2 linked h hstop b hg ih =>
    intro hinv
    exact ih (hinv.step h (not_le.mp hstop) hg)
  | case3 linked h _ hg =>
    intro hinv
    obtain ⟨c, hc, -⟩ := hinv.reached _ (linked.max'_mem h)
    rw [hg] at hc
    contradiction
  | case4 linked h =>
    intro hinv
    obtain rfl := Finset.not_nonempty_iff_eq_empty.mp h
    exact ⟨hinv, by simp⟩

theorem mem_ancestorsAtRound {r : ℕ} {c : VerifiedBlock} :
    c ∈ d.ancestorsAtRound laterBlock r ↔
      ∃ y ∈ d.ancestorsAtRoundLoop r laterBlock.ancestors.toFinset, r ≤ y.round ∧ d.getBlock y = some c := by
  simp [ancestorsAtRound, List.mem_filterMap, Finset.mem_sort, Finset.mem_filter, and_assoc]

theorem nodup_ancestorsAtRound (r : ℕ) : (d.ancestorsAtRound laterBlock r).Nodup := by
  apply (Finset.sort_nodup _ _).filterMap
  intro y y' c hc hc'
  rw [← getBlock_reference (Option.mem_def.mp hc), ← getBlock_reference (Option.mem_def.mp hc')]

/-- `ancestors_at_round` returns, each once, exactly the blocks of the earlier round that
`laterBlock` reaches through ancestor links, and every reference it resolves is held. -/
theorem ancestorsAtRound_spec (laterBlock : VerifiedBlock)
    (hheld : ∀ a ∈ laterBlock.ancestors, ∃ c ∈ d.blocks, c.reference = a) (earlierRound : ℕ) :
    (∀ y ∈ d.ancestorsAtRoundLoop earlierRound laterBlock.ancestors.toFinset, (d.getBlock y).isSome) ∧
      (d.ancestorsAtRound laterBlock earlierRound).Nodup ∧
      ∀ c, c ∈ d.ancestorsAtRound laterBlock earlierRound ↔
        c.round = earlierRound ∧ TransGen (AncestorLink d) laterBlock c := by
  obtain ⟨hinv, hbelow⟩ := linkedInv_ancestorsAtRoundLoop _ (@linkedInv_start d laterBlock earlierRound hheld)
  refine ⟨fun y hy => ?_, nodup_ancestorsAtRound earlierRound, fun c => ?_⟩
  · obtain ⟨c, hc, -⟩ := hinv.reached y hy
    simp [hc]
  rw [mem_ancestorsAtRound]
  constructor
  · rintro ⟨y, hy, hround, hg⟩
    obtain ⟨c', hg', hreach⟩ := hinv.reached y hy
    rw [hg, Option.some_inj] at hg'
    subst hg'
    have hy' := hbelow y hy
    rw [← getBlock_reference hg, VerifiedBlock.reference_round] at hround hy'
    exact ⟨by omega, hreach⟩
  · rintro ⟨hround, hreach⟩
    obtain ⟨y, hy, cy, hgy, hpath⟩ := hinv.covers c hround hreach
    -- the block found is at or below the earlier round and reaches `c` on it: it is `c`
    have hcy := hbelow y hy
    rw [← getBlock_reference hgy, VerifiedBlock.reference_round] at hcy
    rcases eq_or_round_lt_of_reflTransGen hpath with rfl | hlt
    · exact ⟨y, hy, by rw [← getBlock_reference hgy, VerifiedBlock.reference_round, hround], hgy⟩
    · omega

/-- Two genesis blocks, two round-one blocks, a round-two block of author 0 over its own
round-one block only, and a round-three block with a weak link down to round one. -/
def weakLinkGenesis (i : ℕ) : VerifiedBlock := ⟨0, i, 0, 0, [], VerifiedBlock.genesis_ancestors_round_lt⟩

def weakLinkRoundOne (i : ℕ) : VerifiedBlock := ⟨1, i, 1, 1, [⟨0, i, 0⟩, ⟨0, 1 - i, 0⟩], by simp⟩

def weakLinkRoundTwo : VerifiedBlock := ⟨2, 0, 2, 2, [⟨1, 0, 1⟩], by simp⟩

def weakLinkRoundThree : VerifiedBlock := ⟨3, 1, 3, 3, [⟨2, 0, 2⟩, ⟨1, 1, 1⟩], by simp⟩

def weakLinkDag : Dag where
  blocks := [weakLinkGenesis 0, weakLinkGenesis 1, weakLinkRoundOne 0, weakLinkRoundOne 1, weakLinkRoundTwo,
    weakLinkRoundThree]
  sorted := by decide
  ancestors_mem := by decide

theorem ancestorsAtRound_spec_weakLink :
    (∀ a ∈ weakLinkRoundThree.ancestors, ∃ c ∈ weakLinkDag.blocks, c.reference = a) ∧
    (∀ y ∈ weakLinkDag.ancestorsAtRoundLoop 1 weakLinkRoundThree.ancestors.toFinset,
        (weakLinkDag.getBlock y).isSome) ∧
      (weakLinkDag.ancestorsAtRound weakLinkRoundThree 1).Nodup ∧
      ∀ c, c ∈ weakLinkDag.ancestorsAtRound weakLinkRoundThree 1 ↔
        c.round = 1 ∧ TransGen (AncestorLink weakLinkDag) weakLinkRoundThree c :=
  have hheld : ∀ a ∈ weakLinkRoundThree.ancestors, ∃ c ∈ weakLinkDag.blocks, c.reference = a := by decide
  ⟨hheld, ancestorsAtRound_spec weakLinkRoundThree hheld 1⟩

end Dag

end Iota.Consensus
