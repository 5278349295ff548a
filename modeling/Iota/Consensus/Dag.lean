import Mathlib
import Iota.Consensus.Block

/-! The blocks a `DagState` holds, as the committers read them
(`consensus/core/src/dag_state.rs`).  `recent_blocks` is a `BTreeMap` keyed by
reference, so the blocks are kept sorted by reference, which also makes a
reference name at most one block.  The DAG is causally closed: every ancestor
of a held block is held, so the `get_block(..).unwrap_or_else(panic)` lookups
of the committers never fail on it.  No commit has been recorded, so the
`round <= last_commit_round` panic of `get_uncommitted_blocks_at_round` does
not arise either. -/

namespace Iota.Consensus

structure Dag where
  blocks : List VerifiedBlock
  sorted : blocks.Pairwise (fun b b' => b.reference < b'.reference)
  ancestors_mem : ∀ b ∈ blocks, ∀ a ∈ b.ancestors, ∃ b' ∈ blocks, b'.reference = a

namespace Dag

variable (d : Dag)

def getBlock (r : BlockRef) : Option VerifiedBlock := d.blocks.find? (fun b => b.reference == r)

def getUncommittedBlocksAtSlot (slot : Slot) : List VerifiedBlock :=
  d.blocks.filter (fun b => b.slot == slot)

def getUncommittedBlocksAtRound (round : ℕ) : List VerifiedBlock :=
  d.blocks.filter (fun b => b.round == round)

def highestAcceptedRound : ℕ := (d.blocks.map VerifiedBlock.round).foldr max 0

variable {d}

theorem reference_inj {b b' : VerifiedBlock} (hb : b ∈ d.blocks) (hb' : b' ∈ d.blocks)
    (h : b.reference = b'.reference) : b = b' := by
  have key : ∀ l : List VerifiedBlock, l.Pairwise (fun b b' => b.reference < b'.reference) →
      b ∈ l → b' ∈ l → b = b' := by
    intro l hl
    induction l with
    | nil => simp
    | cons x l ih =>
      intro hbx hbx'
      rw [List.pairwise_cons] at hl
      rcases List.mem_cons.mp hbx with rfl | hbl <;> rcases List.mem_cons.mp hbx' with rfl | hbl'
      · rfl
      · exact absurd h (ne_of_lt (hl.1 _ hbl'))
      · exact absurd h.symm (ne_of_lt (hl.1 _ hbl))
      · exact ih hl.2 hbl hbl'
  exact key d.blocks d.sorted hb hb'

theorem getBlock_eq_some_iff {r : BlockRef} {b : VerifiedBlock} :
    d.getBlock r = some b ↔ b ∈ d.blocks ∧ b.reference = r := by
  constructor
  · intro h
    have hmem := List.mem_of_find?_eq_some h
    have hr := List.find?_some h
    exact ⟨hmem, by simpa using hr⟩
  · rintro ⟨hb, rfl⟩
    obtain ⟨b', hb'⟩ : ∃ b', d.getBlock b.reference = some b' := by
      apply Option.isSome_iff_exists.mp
      rw [getBlock, List.find?_isSome]
      exact ⟨b, hb, by simp⟩
    have hmem := List.mem_of_find?_eq_some hb'
    have hr : b'.reference = b.reference := by simpa using List.find?_some hb'
    rw [hb', reference_inj hmem hb hr]

theorem getBlock_reference {r : BlockRef} {b : VerifiedBlock} (h : d.getBlock r = some b) :
    b.reference = r := (Iff.mp getBlock_eq_some_iff h).2

theorem mem_of_getBlock {r : BlockRef} {b : VerifiedBlock} (h : d.getBlock r = some b) :
    b ∈ d.blocks := (Iff.mp getBlock_eq_some_iff h).1

theorem getBlock_of_mem {b : VerifiedBlock} (h : b ∈ d.blocks) : d.getBlock b.reference = some b :=
  Iff.mpr getBlock_eq_some_iff ⟨h, rfl⟩

@[simp] theorem mem_getUncommittedBlocksAtSlot {slot : Slot} {b : VerifiedBlock} :
    b ∈ d.getUncommittedBlocksAtSlot slot ↔ b ∈ d.blocks ∧ b.slot = slot := by
  simp [getUncommittedBlocksAtSlot]

@[simp] theorem mem_getUncommittedBlocksAtRound {round : ℕ} {b : VerifiedBlock} :
    b ∈ d.getUncommittedBlocksAtRound round ↔ b ∈ d.blocks ∧ b.round = round := by
  simp [getUncommittedBlocksAtRound]

theorem getBlock_round_lt {b ab : VerifiedBlock} {a : BlockRef} (ha : a ∈ b.ancestors)
    (hg : d.getBlock a = some ab) : ab.round < b.round := by
  have h := getBlock_reference hg
  rw [← h] at ha
  exact b.round_lt_of_mem_ancestors ha

/-! ### `ancestors_at_round`

The source keeps a `BTreeSet` of linked references and repeatedly expands its
largest element until that element is at or below `earlier_round`.  The
largest element strictly decreases at every expansion, which is the
termination measure. -/

def maxMeasure (s : Finset BlockRef) : ℕ × ℕ × ℕ :=
  if h : s.Nonempty then ((s.max' h).round + 1, (s.max' h).author, (s.max' h).digest) else (0, 0, 0)

theorem maxMeasure_lt {s t : Finset BlockRef} (ht : t.Nonempty) (h : ∀ x ∈ s, x < t.max' ht) :
    Prod.Lex (· < ·) (Prod.Lex (· < ·) (· < ·)) (maxMeasure s) (maxMeasure t) := by
  unfold maxMeasure
  rw [dif_pos ht]
  split
  · rename_i hs
    have hlt := h _ (s.max'_mem hs)
    rw [BlockRef.lt_iff_key_lt] at hlt
    simp only [BlockRef.key, Prod.Lex.toLex_lt_toLex] at hlt
    rcases hlt with hlt | ⟨h1, hlt⟩
    · exact Prod.Lex.left _ _ (by omega)
    · rw [h1]
      apply Prod.Lex.right
      rcases hlt with hlt | ⟨h2, hlt⟩
      · exact Prod.Lex.left _ _ hlt
      · rw [h2]
        exact Prod.Lex.right _ hlt
  · exact Prod.Lex.left _ _ (Nat.succ_pos _)

theorem lt_max'_of_expand {linked : Finset BlockRef} (h : linked.Nonempty) {ab : VerifiedBlock}
    (hab : ab.reference = linked.max' h) :
    ∀ x ∈ linked.erase (linked.max' h) ∪ ab.ancestors.toFinset, x < linked.max' h := by
  intro x hx
  rcases Finset.mem_union.mp hx with hx | hx
  · exact lt_of_le_of_ne (linked.le_max' x (Finset.mem_of_mem_erase hx)) (Finset.ne_of_mem_erase hx)
  · rw [← hab]
    exact BlockRef.lt_of_round_lt (ab.round_lt_of_mem_ancestors (List.mem_toFinset.mp hx))

variable (d)

/-- The `while !linked.is_empty()` loop of `ancestors_at_round`. -/
def ancestorsAtRoundLoop (earlierRound : ℕ) (linked : Finset BlockRef) : Finset BlockRef :=
  if h : linked.Nonempty then
    if (linked.max' h).round ≤ earlierRound then linked
    else
      match _hg : d.getBlock (linked.max' h) with
      | some b => ancestorsAtRoundLoop earlierRound (linked.erase (linked.max' h) ∪ b.ancestors.toFinset)
      -- `panic!("Block {:?} should exist in DAG!")`: unreachable, the DAG is causally closed
      | none => linked
  else linked
termination_by maxMeasure linked
decreasing_by exact maxMeasure_lt h (lt_max'_of_expand h (getBlock_reference _hg))

/-- `DagState::ancestors_at_round`: the linked references from `earlier_round` up,
in ascending order, resolved to blocks. -/
def ancestorsAtRound (laterBlock : VerifiedBlock) (earlierRound : ℕ) : List VerifiedBlock :=
  (((d.ancestorsAtRoundLoop earlierRound laterBlock.ancestors.toFinset).filter
      (fun r => earlierRound ≤ r.round)).sort (· ≤ ·)).filterMap d.getBlock

end Dag

end Iota.Consensus
