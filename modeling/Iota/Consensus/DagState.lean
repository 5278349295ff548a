import Iota.Consensus.Error
import Iota.Lib.Except

/-! The part of `DagState` (`consensus/core/src/dag_state.rs`) that the block
manager reads and writes.  Accepted blocks live in memory or in the store; the
lookups `contains_block` and `get_blocks` read both, so the model keeps one
list of them, in the order they were accepted.  The GC round follows from the
GC depth and the leader round of the last commit; the own authority index and
the local clock are read when a block is accepted.  The threshold clock,
highest-accepted-round and write-buffer updates of `update_block_metadata`
are not read by any modelled function. -/

namespace Iota.Consensus

open Iota.Lib

structure DagState where
  genesis : List VerifiedBlock
  blocks : List VerifiedBlock
  gcDepth : ℕ
  lastCommitRound : ℕ
  ownIndex : ℕ
  nowMs : ℕ
  deriving DecidableEq

namespace DagState

variable (s : DagState)

def gcEnabled : Bool := decide (0 < s.gcDepth)

/-- Without GC the GC round stays at genesis. -/
def calculateGcRound (commitRound : ℕ) : ℕ :=
  if 0 < s.gcDepth then commitRound - s.gcDepth else GENESIS_ROUND

def gcRound : ℕ := s.calculateGcRound s.lastCommitRound

def containsBlock (r : BlockRef) : Bool :=
  s.blocks.any (·.reference == r) || s.genesis.any (·.reference == r)

/-- A genesis reference is looked up among the genesis blocks only. -/
def getBlock (r : BlockRef) : Option VerifiedBlock :=
  if r.round = GENESIS_ROUND then s.genesis.find? (·.reference == r)
  else s.blocks.find? (·.reference == r)

def getBlocks (refs : List BlockRef) : List (Option VerifiedBlock) := refs.map s.getBlock

def getUncommittedBlocksAtSlot (slot : Slot) : List VerifiedBlock :=
  s.blocks.filter (·.slot == slot)

def acceptBlock (b : VerifiedBlock) : Except Panic DagState :=
  if b.round = GENESIS_ROUND then .error .genesisAccepted
  else if s.containsBlock b.reference then .ok s
  else if s.nowMs < b.timestampMs then .error (.blockTimestampInFuture b.reference)
  else if b.author = s.ownIndex ∧ s.getUncommittedBlocksAtSlot b.slot ≠ [] then
    .error (.ownSlotOccupied b.reference)
  else .ok { s with blocks := s.blocks ++ [b] }

def acceptBlocks (bs : List VerifiedBlock) : Except Panic DagState :=
  bs.foldlM (fun s b => s.acceptBlock b) s

/-- A reference the GC has passed: the block manager tolerates it missing. -/
def gcCollects (r : BlockRef) : Prop :=
  s.gcEnabled ∧ GENESIS_ROUND < r.round ∧ r.round ≤ s.gcRound

/-- Every accepted block's ancestors are held, unless the GC has passed them. -/
def CausallyClosed : Prop :=
  ∀ b ∈ s.blocks, ∀ r ∈ b.ancestors, s.containsBlock r ∨ s.gcCollects r

variable {s}

theorem containsBlock_iff {r : BlockRef} :
    s.containsBlock r ↔ (∃ b ∈ s.blocks, b.reference = r) ∨ ∃ g ∈ s.genesis, g.reference = r := by
  simp [containsBlock]

theorem getBlock_reference {r : BlockRef} {b : VerifiedBlock} (h : s.getBlock r = some b) :
    b.reference = r := by
  unfold getBlock at h
  split at h <;> simpa using List.find?_some h

theorem acceptBlock_eq_ok {b : VerifiedBlock} {s' : DagState} :
    s.acceptBlock b = .ok s' ↔ b.round ≠ GENESIS_ROUND ∧
      (s.containsBlock b.reference ∧ s' = s ∨
        ¬s.containsBlock b.reference ∧ b.timestampMs ≤ s.nowMs ∧
          ¬(b.author = s.ownIndex ∧ s.getUncommittedBlocksAtSlot b.slot ≠ []) ∧
          s' = { s with blocks := s.blocks ++ [b] }) := by
  unfold acceptBlock
  split_ifs <;> simp_all [eq_comm (a := s')]

theorem blocks_of_acceptBlock {b : VerifiedBlock} {s' : DagState} (h : s.acceptBlock b = .ok s') :
    s'.blocks = s.blocks ∨ s'.blocks = s.blocks ++ [b] := by
  rcases (Iff.mp acceptBlock_eq_ok h).2 with ⟨-, rfl⟩ | ⟨-, -, -, rfl⟩
  · exact .inl rfl
  · exact .inr rfl

theorem containsBlock_of_acceptBlock {b : VerifiedBlock} {s' : DagState} (h : s.acceptBlock b = .ok s')
    {r : BlockRef} (hr : s.containsBlock r) : s'.containsBlock r := by
  rw [containsBlock_iff] at hr ⊢
  rcases (Iff.mp acceptBlock_eq_ok h).2 with ⟨-, rfl⟩ | ⟨-, -, -, rfl⟩
  · exact hr
  · simp only [List.mem_append, List.mem_singleton, or_and_right, exists_or, exists_eq_left]
    rcases hr with hr | hr
    · exact .inl (.inl hr)
    · exact .inr hr

theorem containsBlock_of_getBlock {r : BlockRef} {b : VerifiedBlock} (h : s.getBlock r = some b) :
    s.containsBlock r := by
  rw [containsBlock_iff]
  have hr := getBlock_reference h
  unfold getBlock at h
  split at h
  · exact .inr ⟨b, List.mem_of_find?_eq_some h, hr⟩
  · exact .inl ⟨b, List.mem_of_find?_eq_some h, hr⟩

theorem acceptBlock_withBlocks {b : VerifiedBlock} {s' : DagState} (h : s.acceptBlock b = .ok s') :
    s' = { s with blocks := s'.blocks } := by
  rcases (Iff.mp acceptBlock_eq_ok h).2 with ⟨-, rfl⟩ | ⟨-, -, -, rfl⟩ <;> rfl

theorem containsBlock_self_of_acceptBlock {b : VerifiedBlock} {s' : DagState}
    (h : s.acceptBlock b = .ok s') : s'.containsBlock b.reference := by
  rcases (Iff.mp acceptBlock_eq_ok h).2 with ⟨hc, rfl⟩ | ⟨-, -, -, rfl⟩
  · exact hc
  · rw [containsBlock_iff]
    exact .inl ⟨b, by simp, rfl⟩

/-! Accepting several blocks keeps everything but the blocks, keeps every
block held, holds every block it was given, and adds nothing else. -/

theorem getBlock_isSome_of_containsBlock (hgenesis : ∀ g ∈ s.genesis, g.round = GENESIS_ROUND)
    (hblocks : ∀ b ∈ s.blocks, b.round ≠ GENESIS_ROUND) {r : BlockRef} (hr : s.containsBlock r) :
    (s.getBlock r).isSome := by
  unfold getBlock
  rw [containsBlock_iff] at hr
  split_ifs with h0
  · rcases hr with ⟨b, hb, rfl⟩ | ⟨g, hg, rfl⟩
    · exact absurd h0 (hblocks b hb)
    · rw [List.find?_isSome]
      exact ⟨g, hg, by simp⟩
  · rcases hr with ⟨b, hb, rfl⟩ | ⟨g, hg, rfl⟩
    · rw [List.find?_isSome]
      exact ⟨b, hb, by simp⟩
    · exact absurd (hgenesis g hg) h0

theorem acceptBlock_error {b : VerifiedBlock} {p : Panic} (h : s.acceptBlock b = .error p) :
    p = .genesisAccepted ∨ p = .blockTimestampInFuture b.reference ∨ p = .ownSlotOccupied b.reference := by
  unfold acceptBlock at h
  split_ifs at h <;> cases h <;> simp

section AcceptBlocks

variable {bs : List VerifiedBlock} {s' : DagState}

theorem acceptBlocks_withBlocks (h : s.acceptBlocks bs = .ok s') : s' = { s with blocks := s'.blocks } := by
  refine foldlM_except_induction (P := fun x => x = { s with blocks := x.blocks }) rfl ?_ h
  intro x b y _ hx hy
  rw [acceptBlock_withBlocks hy, hx]

@[simp] theorem gcRound_withBlocks (l : List VerifiedBlock) : { s with blocks := l }.gcRound = s.gcRound := rfl

@[simp] theorem gcEnabled_withBlocks (l : List VerifiedBlock) :
    { s with blocks := l }.gcEnabled = s.gcEnabled := rfl

theorem gcCollects_of_acceptBlocks (h : s.acceptBlocks bs = .ok s') {r : BlockRef} (hr : s.gcCollects r) :
    s'.gcCollects r := by
  rw [acceptBlocks_withBlocks h]
  exact hr

theorem containsBlock_of_acceptBlocks (h : s.acceptBlocks bs = .ok s') {r : BlockRef}
    (hr : s.containsBlock r) : s'.containsBlock r :=
  foldlM_except_induction (P := fun x => x.containsBlock r) hr
    (fun _ _ _ _ hx hy => containsBlock_of_acceptBlock hy hx) h

theorem containsBlock_of_mem_acceptBlocks :
    ∀ {s s' : DagState} {bs : List VerifiedBlock}, s.acceptBlocks bs = .ok s' →
      ∀ b ∈ bs, s'.containsBlock b.reference
  | _, _, [], _ => by simp
  | s, s', x :: rest, h => by
    rw [acceptBlocks, List.foldlM_cons, except_bind_eq_ok] at h
    obtain ⟨s₁, h₁, hrest⟩ := h
    intro b hb
    rcases List.mem_cons.mp hb with rfl | hb
    · exact containsBlock_of_acceptBlocks hrest (containsBlock_self_of_acceptBlock h₁)
    · exact containsBlock_of_mem_acceptBlocks hrest b hb

theorem mem_blocks_of_acceptBlocks (h : s.acceptBlocks bs = .ok s') :
    ∀ x ∈ s'.blocks, x ∈ s.blocks ∨ x ∈ bs := by
  refine foldlM_except_induction (P := fun y => ∀ x ∈ y.blocks, x ∈ s.blocks ∨ x ∈ bs)
    (fun x hx => .inl hx) ?_ h
  intro y b z hb hy hz x hx
  rcases blocks_of_acceptBlock hz with heq | heq <;> rw [heq] at hx
  · exact hy x hx
  · rcases List.mem_append.mp hx with hx | hx
    · exact hy x hx
    · rw [List.mem_singleton.mp hx]
      exact .inr hb

theorem containsBlock_acceptBlocks_cases (h : s.acceptBlocks bs = .ok s') {r : BlockRef}
    (hr : s'.containsBlock r) : s.containsBlock r ∨ ∃ b ∈ bs, b.reference = r := by
  rw [containsBlock_iff] at hr
  rcases hr with ⟨b, hb, rfl⟩ | ⟨g, hg, rfl⟩
  · rcases mem_blocks_of_acceptBlocks h b hb with hb | hb
    · exact .inl (Iff.mpr containsBlock_iff (.inl ⟨b, hb, rfl⟩))
    · exact .inr ⟨b, hb, rfl⟩
  · rw [acceptBlocks_withBlocks h] at hg
    exact .inl (Iff.mpr containsBlock_iff (.inr ⟨g, hg, rfl⟩))

theorem causallyClosed_of_acceptBlocks (hs : s.CausallyClosed)
    (hbs : ∀ b ∈ bs, ∀ r ∈ b.ancestors, s.containsBlock r ∨ (∃ a ∈ bs, a.reference = r) ∨ s.gcCollects r)
    (h : s.acceptBlocks bs = .ok s') : s'.CausallyClosed := by
  intro b hb r hr
  have held : ∀ {r}, s.containsBlock r ∨ s.gcCollects r → s'.containsBlock r ∨ s'.gcCollects r :=
    fun hr => hr.imp (containsBlock_of_acceptBlocks h) (gcCollects_of_acceptBlocks h)
  rcases mem_blocks_of_acceptBlocks h b hb with hb | hb
  · exact held (hs b hb r hr)
  · rcases hbs b hb r hr with hc | ⟨a, ha, rfl⟩ | hg
    · exact held (.inl hc)
    · exact .inl (containsBlock_of_mem_acceptBlocks h a ha)
    · exact held (.inr hg)

theorem acceptBlocks_eq_ok_append :
    ∀ {s : DagState} {bs : List VerifiedBlock}, (∀ b ∈ bs, b.round ≠ GENESIS_ROUND) →
      (∀ b ∈ bs, s.containsBlock b.reference = false) → (bs.map VerifiedBlock.reference).Nodup →
      (∀ b ∈ bs, b.timestampMs ≤ s.nowMs) →
      (∀ b ∈ bs, b.author = s.ownIndex → ∀ b' ∈ s.blocks ++ bs, b'.slot = b.slot → b' = b) →
      s.acceptBlocks bs = .ok { s with blocks := s.blocks ++ bs }
  | s, [], _, _, _, _, _ => by simp [acceptBlocks, pure, Except.pure]
  | s, b :: bs, hround, hfresh, hnodup, htime, hown => by
    rw [List.map_cons, List.nodup_cons] at hnodup
    -- the own slot of `b` is free: a block there would be `b`, which is not held
    have hslot : ¬(b.author = s.ownIndex ∧ s.getUncommittedBlocksAtSlot b.slot ≠ []) := by
      rintro ⟨hauthor, hne⟩
      obtain ⟨b', hb'⟩ := List.exists_mem_of_ne_nil _ hne
      rw [getUncommittedBlocksAtSlot, List.mem_filter, beq_iff_eq] at hb'
      have hb : b' = b := hown b List.mem_cons_self hauthor b' (List.mem_append_left _ hb'.1) hb'.2
      subst hb
      have := hfresh b' List.mem_cons_self
      simp [containsBlock] at this
      exact this.1 b' hb'.1 rfl
    have hone : s.acceptBlock b = .ok { s with blocks := s.blocks ++ [b] } := by
      unfold acceptBlock
      rw [if_neg (hround b List.mem_cons_self), if_neg (by simp [hfresh b List.mem_cons_self]),
        if_neg (Nat.not_lt.mpr (htime b List.mem_cons_self)), if_neg hslot]
    have hrest : ({ s with blocks := s.blocks ++ [b] } : DagState).acceptBlocks bs =
        .ok { s with blocks := s.blocks ++ [b] ++ bs } := by
      refine acceptBlocks_eq_ok_append (fun b' hb' => hround b' (List.mem_cons_of_mem b hb'))
        (fun b' hb' => ?_) hnodup.2 (fun b' hb' => htime b' (List.mem_cons_of_mem b hb'))
        (fun b' hb' hauthor b'' hb'' => hown b' (List.mem_cons_of_mem b hb') hauthor b'' (by simpa using hb''))
      -- a later block is not held before, nor is it `b`
      have hne : b'.reference ≠ b.reference := fun h => hnodup.1 (List.mem_map.mpr ⟨b', hb', h⟩)
      have hs := hfresh b' (List.mem_cons_of_mem b hb')
      simp only [containsBlock, List.any_append, List.any_cons, List.any_nil, Bool.or_false, Bool.or_eq_false_iff,
        beq_eq_false_iff_ne] at hs ⊢
      exact ⟨⟨hs.1, Ne.symm hne⟩, hs.2⟩
    rw [acceptBlocks, List.foldlM_cons, hone, except_ok_bind]
    rw [acceptBlocks] at hrest
    rw [hrest, List.append_assoc, List.singleton_append]

theorem acceptBlocks_error {p : Panic} (h : s.acceptBlocks bs = .error p) :
    ∃ b ∈ bs, p = .genesisAccepted ∨ p = .blockTimestampInFuture b.reference ∨ p = .ownSlotOccupied b.reference := by
  obtain ⟨s₁, b, hb, -, hs₁⟩ := foldlM_except_error (P := fun _ => True) trivial (fun _ _ _ _ _ _ => trivial) h
  exact ⟨b, hb, acceptBlock_error hs₁⟩

end AcceptBlocks

end DagState

end Iota.Consensus
