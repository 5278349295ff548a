import Iota.Consensus.BlockManagerIndex

/-! `try_unsuspend_blocks_for_latest_gc_round` from an indexed state.  Its least missing
reference is never suspended: a suspended block waits on ancestors of lower rounds, and
those are missing references below it.  Each round takes that reference out of
`missing_ancestors` and adds none, so the loop's fuel, one round per entry, is enough, and
when it stops every missing reference is above the GC round.  What the index says of the
other two maps then puts `missing_blocks` and the suspended blocks above it too. -/

namespace Iota.Consensus

open Iota.Lib

namespace BlockManager

section Keys

theorem unsuspendChild_missingAncestors {r x : BlockRef} {acc acc' : BlockManager × List BlockRef × List VerifiedBlock}
    (h : unsuspendChild r acc x = .ok acc') : acc'.1.missingAncestors = acc.1.missingAncestors := by
  obtain ⟨bm, toProcess, unsuspended⟩ := acc
  simp only [unsuspendChild, except_bind_eq_ok] at h
  obtain ⟨⟨bm₁, o⟩, h₁, h₂⟩ := h
  have hshape := tryUnsuspendBlock_shape h₁
  cases o <;> simp only [Except.ok.injEq] at h₂ <;> subst h₂ <;> rw [hshape]

theorem mem_missingAncestors_of_tryUnsuspendChildrenBlocksLoop :
    ∀ {n : ℕ} {bm bm' : BlockManager} {toProcess : List BlockRef} {unsuspended out : List VerifiedBlock},
      tryUnsuspendChildrenBlocksLoop n bm toProcess unsuspended = .ok (bm', out) →
        ∀ k ∈ bm'.missingAncestors, k ∈ bm.missingAncestors
  | 0, _, _, _, _, _, h => by cases h; exact fun _ hk => hk
  | _ + 1, _, _, [], _, _, h => by cases h; exact fun _ hk => hk
  | n + 1, bm, bm', r :: toProcess, unsuspended, out, h => by
    unfold tryUnsuspendChildrenBlocksLoop at h
    split at h
    · exact mem_missingAncestors_of_tryUnsuspendChildrenBlocksLoop h
    · rw [except_bind_eq_ok] at h
      obtain ⟨⟨bm₁, toProcess₁, unsuspended₁⟩, hfold, hloop⟩ := h
      have hbm₁ : bm₁.missingAncestors = (bm.missingAncestors.erase r) :=
        foldlM_except_induction (P := fun acc => acc.1.missingAncestors = bm.missingAncestors.erase r) rfl
          (fun _ _ _ _ hacc hstep => (unsuspendChild_missingAncestors hstep).trans hacc) hfold
      intro k hk
      have hk₁ := mem_missingAncestors_of_tryUnsuspendChildrenBlocksLoop hloop k hk
      rw [hbm₁] at hk₁
      exact (AList.mem_erase.mp hk₁).2

theorem length_entries_lt_of_subset {β : Type} {s t : AList (fun _ : BlockRef => β)} {r : BlockRef}
    (hsub : ∀ k ∈ t, k ∈ s) (hr : r ∈ s) (hr' : r ∉ t) : t.entries.length < s.entries.length := by
  rw [length_entries_eq_keys, length_entries_eq_keys, ← List.toFinset_card_of_nodup t.keys_nodup,
    ← List.toFinset_card_of_nodup s.keys_nodup]
  apply Finset.card_lt_card
  refine Finset.ssubset_iff_of_subset (fun k hk => ?_) |>.mpr ⟨r, ?_, ?_⟩
  · simpa [AList.mem_keys] using hsub k (by simpa [AList.mem_keys] using hk)
  · simpa [AList.mem_keys] using hr
  · simpa [AList.mem_keys] using hr'

end Keys

section Gc

variable {bm : BlockManager}

theorem not_suspended_of_least_missing (hi : bm.Indexed) {r : BlockRef}
    (hleast : ∀ k ∈ bm.missingAncestors, r ≤ k) : r ∉ bm.suspendedBlocks := by
  intro hsus
  obtain ⟨s, hs⟩ := Option.isSome_iff_exists.mp (AList.lookup_isSome.mpr hsus)
  obtain ⟨⟨m, hm⟩, hanc⟩ := hi.suspended_missing r s hs
  have hround : m.round < r.round := by
    rw [← hi.suspended_reference r s hs, VerifiedBlock.reference_round]
    exact s.block.round_lt_of_mem_ancestors (hanc m hm)
  obtain ⟨cs, hcs, -⟩ := hi.waits_iff_listed.mp ⟨s, hs, hm⟩
  have hkey : m ∈ bm.missingAncestors := AList.lookup_isSome.mp (by simp [hcs])
  exact absurd (hleast m hkey) (not_le.mpr (BlockRef.lt_of_round_lt hround))

variable (checkAncestors :
  VerifiedBlock → List (Option VerifiedBlock) → Bool → ℕ → Except Panic (Except ConsensusError Unit))

theorem gcStep_spec (hi : bm.Indexed) {r : BlockRef} (hsus : r ∉ bm.suspendedBlocks) {bm₂ bm₃ : BlockManager}
    {unsuspended verified : List VerifiedBlock}
    (h₂ : ({ bm with missingBlocks := bm.missingBlocks.erase r } : BlockManager).tryUnsuspendChildrenBlocks r =
      .ok (bm₂, unsuspended))
    (h₃ : bm₂.verifyBlockTimestampsAndAccept checkAncestors unsuspended = .ok (bm₃, verified)) :
    bm₃.Indexed ∧ (∀ k ∈ bm₃.missingAncestors, k ∈ bm.missingAncestors) ∧ r ∉ bm₃.missingAncestors := by
  have hi₁ := hi.eraseMissingBlock r
  have hunheld : ∀ c m, ({ bm with missingBlocks := bm.missingBlocks.erase r } : BlockManager).Waits c m →
      bm.dagState.containsBlock m = false ∨ m = r := fun c m hw => .inl (hi.waits_not_held c m hw)
  have hi₃ : bm₃.Indexed :=
    @indexed_of_unsuspend_verify checkAncestors _ _ _ _ [] _ _ hi₁.toIndexedUpTo hunheld hsus (by simp) (by simp) h₂
      (by rwa [List.nil_append])
  -- the loop's own run from `r`, whose stack it empties
  obtain ⟨bm₂', unsuspended', hloop, hc, -, -⟩ :=
    tryUnsuspendChildrenBlocks_cascade (Q := fun _ => True) hi₁.toIndexedUpTo hunheld hsus (by simp)
      (fun _ _ _ _ _ => .inl trivial)
  rw [hloop, Except.ok.injEq, Prod.mk.injEq] at h₂
  obtain ⟨rfl, rfl⟩ := h₂
  have hframe := (verifyBlockTimestampsAndAccept_frame checkAncestors h₃).1
  refine ⟨hi₃, fun k hk => ?_, ?_⟩
  · rw [hframe] at hk
    exact mem_missingAncestors_of_tryUnsuspendChildrenBlocksLoop hloop k hk
  · rw [hframe]
    exact hc.released_not_listed (.inl rfl)

theorem unsuspendBelowGcRoundLoop_spec {gcRound : ℕ} :
    ∀ {n : ℕ} {bm : BlockManager}, bm.Indexed → bm.missingAncestors.entries.length ≤ n →
      (∀ p, unsuspendBelowGcRoundLoop checkAncestors gcRound n bm = .error p →
        ∃ (bm' : BlockManager) (l : List VerifiedBlock), bm'.verifyBlockTimestampsAndAccept checkAncestors l = .error p) ∧
      ∀ bm', unsuspendBelowGcRoundLoop checkAncestors gcRound n bm = .ok bm' →
        bm'.Indexed ∧ ∀ k ∈ bm'.missingAncestors, gcRound < k.round
  | 0, bm, hi, hlen => by
    -- no entry is left: the loop is done
    have hempty : ∀ k, k ∉ bm.missingAncestors := fun k hk => by
      have := List.length_pos_of_mem (AList.mem_keys.mpr hk)
      rw [← length_entries_eq_keys] at this
      omega
    refine ⟨fun p h => (by cases h), fun bm' h => ?_⟩
    cases h
    exact ⟨hi, fun k hk => absurd hk (hempty k)⟩
  | n + 1, bm, hi, hlen => by
    unfold BlockManager.unsuspendBelowGcRoundLoop
    split
    · -- no missing reference at all
      rename_i hnone
      have hempty := head?_ascending_eq_none hnone
      refine ⟨fun p h => (by cases h), fun bm' h => ?_⟩
      cases h
      refine ⟨hi, fun k hk => absurd (List.mem_toFinset.mpr (AList.mem_keys.mpr hk)) ?_⟩
      rw [hempty]
      exact Finset.notMem_empty k
    · rename_i r hsome
      obtain ⟨hr, hleast⟩ := head?_ascending_eq_some hsome
      have hrkey : r ∈ bm.missingAncestors := AList.mem_keys.mp (List.mem_toFinset.mp hr)
      have hleast' : ∀ k ∈ bm.missingAncestors, r ≤ k :=
        fun k hk => hleast k (List.mem_toFinset.mpr (AList.mem_keys.mpr hk))
      have hsus := not_suspended_of_least_missing hi hleast'
      -- the `assert!` branch is gone: `r` is not suspended
      split_ifs with hround
      · -- the least missing reference is above the GC round, and so is every other
        refine ⟨fun p h => (by cases h), fun bm' h => ?_⟩
        cases h
        exact ⟨hi, fun k hk => lt_of_lt_of_le hround (BlockRef.round_le_of_le (hleast' k hk))⟩
      · -- one round: `r` is given up on and its children are released and checked
        have hstep : ∀ bm₂ unsuspended, ({ bm with missingBlocks := bm.missingBlocks.erase r } : BlockManager).tryUnsuspendChildrenBlocks r =
            .ok (bm₂, unsuspended) → ∀ bm₃ verified,
              bm₂.verifyBlockTimestampsAndAccept checkAncestors unsuspended = .ok (bm₃, verified) →
              bm₃.Indexed ∧ bm₃.missingAncestors.entries.length ≤ n := by
          intro bm₂ unsuspended h₂ bm₃ verified h₃
          obtain ⟨hi₃, hsub, hr₃⟩ := gcStep_spec checkAncestors hi hsus h₂ h₃
          exact ⟨hi₃, by have := length_entries_lt_of_subset hsub hrkey hr₃; omega⟩
        obtain ⟨bm₂, unsuspended, h₂⟩ : ∃ bm₂ unsuspended,
            ({ bm with missingBlocks := bm.missingBlocks.erase r } : BlockManager).tryUnsuspendChildrenBlocks r =
              .ok (bm₂, unsuspended) := by
          obtain ⟨bm₂, unsuspended, hloop, -⟩ :=
            tryUnsuspendChildrenBlocks_cascade (Q := fun _ => True) (hi.eraseMissingBlock r).toIndexedUpTo
              (fun c m hw => .inl (hi.waits_not_held c m hw)) hsus (by simp) (fun _ _ _ _ _ => .inl trivial)
          exact ⟨bm₂, unsuspended, hloop⟩
        simp only [h₂, except_ok_bind]
        cases h₃ : bm₂.verifyBlockTimestampsAndAccept checkAncestors unsuspended with
        | error p =>
          refine ⟨fun p' h => ⟨bm₂, unsuspended, ?_⟩, fun bm' h => (by cases h)⟩
          cases h
          exact h₃
        | ok res =>
          obtain ⟨bm₃, verified⟩ := res
          obtain ⟨hi₃, hlen₃⟩ := hstep bm₂ unsuspended h₂ bm₃ verified h₃
          exact unsuspendBelowGcRoundLoop_spec hi₃ hlen₃

end Gc

/-! ### Without GC

With GC disabled the call returns at once, and the GC round is the genesis round.  No
missing reference is of that round: a block's genesis-round ancestors are genesis blocks,
which `verify` checks and the DAG state holds from the start, and `try_find_blocks` looks
only above the GC round. -/

section Genesis

variable (checkAncestors :
  VerifiedBlock → List (Option VerifiedBlock) → Bool → ℕ → Except Panic (Except ConsensusError Unit))

/-- The blocks an operation hands to the block manager. -/
def Op.blocks : Op → List VerifiedBlock
  | .tryAcceptBlocks blocks => blocks
  | .tryAcceptCommittedBlocks blocks => blocks
  | _ => []

/-- Every genesis-round ancestor of a block handed over is held from the start:
`SignedBlockVerifier::verify` rejects any other with `InvalidGenesisAncestor`. -/
def GenesisAncestorsHeld (ds : DagState) (ops : List Op) : Prop :=
  ∀ op ∈ ops, ∀ b ∈ op.blocks, ∀ a ∈ b.ancestors, a.round = GENESIS_ROUND → ds.containsBlock a

theorem acceptBlocks_gcDepth {s s' : DagState} {bs : List VerifiedBlock} (h : s.acceptBlocks bs = .ok s') :
    s'.gcDepth = s.gcDepth := by
  rw [DagState.acceptBlocks_withBlocks h]

theorem verifyBlockTimestampsAndAccept_gcDepth {bm bm' : BlockManager} {l out : List VerifiedBlock}
    (h : bm.verifyBlockTimestampsAndAccept checkAncestors l = .ok (bm', out)) :
    bm'.dagState.gcDepth = bm.dagState.gcDepth := by
  simp only [verifyBlockTimestampsAndAccept, except_bind_eq_ok] at h
  obtain ⟨⟨toAccept, toReject⟩, -, ds, hds, h⟩ := h
  simp only [Except.ok.injEq, Prod.mk.injEq] at h
  obtain ⟨rfl, -⟩ := h
  exact acceptBlocks_gcDepth hds

theorem tryAcceptOneCommittedBlock_gcDepth {bm bm' : BlockManager} {b : VerifiedBlock} {res : TryAcceptResult}
    (h : bm.tryAcceptOneCommittedBlock b = .ok (bm', res)) : bm'.dagState.gcDepth = bm.dagState.gcDepth := by
  unfold tryAcceptOneCommittedBlock at h
  dsimp only at h
  split_ifs at h
  · cases h
    rfl
  · rw [except_bind_eq_ok] at h
    obtain ⟨ds, hds, h⟩ := h
    cases h
    rw [acceptBlocks_gcDepth hds]
    split <;> rfl

theorem acceptStep_cases {committed : Bool} {bm : BlockManager} {accepted : List VerifiedBlock}
    {missing : Finset BlockRef} {acc' : BlockManager × List VerifiedBlock × Finset BlockRef} {block : VerifiedBlock}
    (h : acceptStep checkAncestors committed (bm, accepted, missing) block = .ok acc') :
    ∃ bm₁ res, (committed = false ∧ bm.tryAcceptOneBlock block = (bm₁, res) ∨
        committed = true ∧ bm.tryAcceptOneCommittedBlock block = .ok (bm₁, res)) ∧
      (acc'.1 = bm₁ ∨ ∃ b bm₂ unsuspended l verified, res = .accepted b ∧
        bm₁.tryUnsuspendChildrenBlocks block.reference = .ok (bm₂, unsuspended) ∧
        bm₂.verifyBlockTimestampsAndAccept checkAncestors l = .ok (acc'.1, verified)) := by
  -- the first call, by whether the block is committed, then the rest by its outcome
  cases committed
  · simp only [acceptStep, Bool.false_eq_true, ↓reduceIte, except_bind_eq_ok] at h
    obtain ⟨⟨bm₁, res⟩, hone, h⟩ := h
    refine ⟨bm₁, res, .inl ⟨rfl, Except.ok.inj hone⟩, ?_⟩
    cases res with
    | accepted b =>
      simp only [except_bind_eq_ok] at h
      obtain ⟨⟨bm₂, unsuspended⟩, hunsuspend, ⟨bm₃, verified⟩, hverify, h⟩ := h
      cases h
      exact .inr ⟨b, bm₂, unsuspended, _, verified, rfl, hunsuspend, hverify⟩
    | suspended toFetch => cases h; exact .inl rfl
    | processed => cases h; exact .inl rfl
    | skipped => cases h; exact .inl rfl
  · simp only [acceptStep, ↓reduceIte, except_bind_eq_ok] at h
    obtain ⟨⟨bm₁, res⟩, hone, h⟩ := h
    refine ⟨bm₁, res, .inr ⟨rfl, hone⟩, ?_⟩
    cases res with
    | accepted b =>
      simp only [except_bind_eq_ok] at h
      obtain ⟨⟨bm₂, unsuspended⟩, hunsuspend, ⟨bm₃, verified⟩, hverify, h⟩ := h
      cases h
      exact .inr ⟨b, bm₂, unsuspended, _, verified, rfl, hunsuspend, hverify⟩
    | suspended toFetch => cases h
    | processed => cases h; exact .inl rfl
    | skipped => cases h

theorem acceptStep_gcDepth {committed : Bool} {acc acc' : BlockManager × List VerifiedBlock × Finset BlockRef}
    {block : VerifiedBlock} (h : acceptStep checkAncestors committed acc block = .ok acc') :
    acc'.1.dagState.gcDepth = acc.1.dagState.gcDepth := by
  obtain ⟨bm, accepted, missing⟩ := acc
  obtain ⟨bm₁, res, hone, hrest⟩ := acceptStep_cases checkAncestors h
  have h₁ : bm₁.dagState.gcDepth = bm.dagState.gcDepth := by
    rcases hone with ⟨-, hone⟩ | ⟨-, hone⟩
    · rw [← tryAcceptOneBlock_dagState bm block, hone]
    · exact tryAcceptOneCommittedBlock_gcDepth hone
  rcases hrest with hrest | ⟨b, bm₂, unsuspended, l, verified, -, hunsuspend, hverify⟩
  · rw [hrest, h₁]
  · rw [verifyBlockTimestampsAndAccept_gcDepth checkAncestors hverify, tryUnsuspendChildrenBlocks_dagState hunsuspend,
      h₁]

theorem tryAcceptBlocksInternal_gcDepth {bm bm' : BlockManager} {blocks accepted : List VerifiedBlock}
    {committed : Bool} {missing : Finset BlockRef}
    (h : bm.tryAcceptBlocksInternal checkAncestors blocks committed = .ok (bm', accepted, missing)) :
    bm'.dagState.gcDepth = bm.dagState.gcDepth :=
  foldlM_except_induction (P := fun acc => acc.1.dagState.gcDepth = bm.dagState.gcDepth) rfl
    (fun _ _ _ _ hacc hstep => (acceptStep_gcDepth checkAncestors hstep).trans hacc) h

theorem acceptStep_missingAncestors {acc acc' : BlockManager × List VerifiedBlock × Finset BlockRef}
    {block : VerifiedBlock} (h : acceptStep checkAncestors false acc block = .ok acc') :
    (∀ a, acc.1.dagState.containsBlock a → acc'.1.dagState.containsBlock a) ∧
      ∀ k ∈ acc'.1.missingAncestors,
        k ∈ acc.1.missingAncestors ∨ k ∈ block.ancestors ∧ acc.1.dagState.containsBlock k = false := by
  obtain ⟨bm, accepted, missing⟩ := acc
  obtain ⟨bm₁, res, hone, hrest⟩ := acceptStep_cases checkAncestors h
  obtain ⟨-, hone⟩ | ⟨hcommitted, -⟩ := hone
  swap
  · cases hcommitted
  have hds₁ : bm₁.dagState = bm.dagState := by rw [← tryAcceptOneBlock_dagState bm block, hone]
  have hkeys₁ : ∀ k ∈ bm₁.missingAncestors,
      k ∈ bm.missingAncestors ∨ k ∈ block.ancestors ∧ bm.dagState.containsBlock k = false := by
    cases res with
    | accepted b =>
      obtain ⟨-, rfl, -⟩ := tryAcceptOneBlock_eq_accepted hone
      exact fun k hk => .inl hk
    | suspended toFetch =>
      obtain ⟨bm₀, ancestors, hm, -, hmem, -, -, rfl⟩ := tryAcceptOneBlock_eq_suspended hone
      intro k hk
      rcases (hm.mem_missingAncestors k).mp hk with hk | hk
      · exact .inl hk
      · exact .inr ⟨((hmem k).mp hk).1, ((hmem k).mp hk).2.1⟩
    | processed =>
      rw [tryAcceptOneBlock_of_seen hone (.inl rfl)]
      exact fun k hk => .inl hk
    | skipped =>
      rw [tryAcceptOneBlock_of_seen hone (.inr rfl)]
      exact fun k hk => .inl hk
  rcases hrest with hrest | ⟨b, bm₂, unsuspended, l, verified, -, hunsuspend, hverify⟩
  · rw [hrest, hds₁]
    exact ⟨fun a ha => ha, hkeys₁⟩
  · obtain ⟨hframe, -, hgrow, -⟩ := verifyBlockTimestampsAndAccept_frame checkAncestors hverify
    have hds₂ := tryUnsuspendChildrenBlocks_dagState hunsuspend
    refine ⟨fun a ha => hgrow a (by rw [hds₂, hds₁]; exact ha), fun k hk => ?_⟩
    rw [hframe] at hk
    exact hkeys₁ k (mem_missingAncestors_of_tryUnsuspendChildrenBlocksLoop hunsuspend k hk)

theorem unsuspendBelowGcRoundLoop_gcDepth {gcRound : ℕ} :
    ∀ {n : ℕ} {bm bm' : BlockManager}, unsuspendBelowGcRoundLoop checkAncestors gcRound n bm = .ok bm' →
      bm'.dagState.gcDepth = bm.dagState.gcDepth
  | 0, _, _, h => by cases h; rfl
  | n + 1, bm, bm', h => by
    unfold BlockManager.unsuspendBelowGcRoundLoop at h
    split at h
    · cases h
      rfl
    · split_ifs at h
      · cases h
        rfl
      · simp only [except_bind_eq_ok] at h
        obtain ⟨⟨bm₂, unsuspended⟩, hunsuspend, ⟨bm₃, verified⟩, hverify, hloop⟩ := h
        rw [unsuspendBelowGcRoundLoop_gcDepth hloop, verifyBlockTimestampsAndAccept_gcDepth checkAncestors hverify,
          tryUnsuspendChildrenBlocks_dagState hunsuspend]

theorem findBlock_dagState (acc : BlockManager × Finset BlockRef) (r : BlockRef) :
    (findBlock acc r).1.dagState = acc.1.dagState := by
  obtain ⟨bm, missing⟩ := acc
  unfold findBlock
  dsimp only
  split_ifs <;> rfl

theorem foldl_findBlock_dagState :
    ∀ (l : List BlockRef) (acc : BlockManager × Finset BlockRef), (l.foldl findBlock acc).1.dagState = acc.1.dagState
  | [], _ => rfl
  | r :: l, acc => (foldl_findBlock_dagState l (findBlock acc r)).trans (findBlock_dagState acc r)

theorem mem_missingAncestors_findBlock {acc : BlockManager × Finset BlockRef} {r k : BlockRef}
    (hk : k ∈ (findBlock acc r).1.missingAncestors) : k ∈ acc.1.missingAncestors ∨ k = r := by
  obtain ⟨bm, missing⟩ := acc
  unfold findBlock at hk
  dsimp only at hk
  split_ifs at hk with hseen hmb hkey
  · exact .inl hk
  · exact .inl hk
  · exact .inl hk
  · rw [AList.mem_insert] at hk
    rcases hk with rfl | hk
    · exact .inr rfl
    · exact .inl hk

theorem mem_missingAncestors_foldl_findBlock :
    ∀ (l : List BlockRef) (acc : BlockManager × Finset BlockRef) (k : BlockRef),
      k ∈ (l.foldl findBlock acc).1.missingAncestors → k ∈ acc.1.missingAncestors ∨ k ∈ l
  | [], _, _, hk => .inl hk
  | r :: l, acc, k, hk => by
    rcases mem_missingAncestors_foldl_findBlock l (findBlock acc r) k hk with hk | hk
    · rcases mem_missingAncestors_findBlock hk with hk | rfl
      · exact .inl hk
      · exact .inr List.mem_cons_self
    · exact .inr (List.mem_cons_of_mem r hk)

theorem tryFindBlocks_spec (bm : BlockManager) (blockRefs : List BlockRef) :
    (bm.tryFindBlocks blockRefs).1.dagState = bm.dagState ∧
      ∀ k ∈ (bm.tryFindBlocks blockRefs).1.missingAncestors,
        k ∈ bm.missingAncestors ∨ bm.dagState.gcRound < k.round := by
  refine ⟨foldl_findBlock_dagState _ _, fun k hk => ?_⟩
  rcases mem_missingAncestors_foldl_findBlock _ _ k hk with hk | hk
  · exact .inl hk
  · rw [List.mem_insertionSort, List.mem_filter, decide_eq_true_eq] at hk
    exact .inr hk.2

/-- What a run keeps with GC disabled: the GC depth, the blocks held at the start, and
missing references above the genesis round. -/
structure GenesisKeys (ds : DagState) (bm : BlockManager) : Prop where
  gcDepth_eq : bm.dagState.gcDepth = ds.gcDepth
  held : ds.gcDepth = 0 → ∀ a, ds.containsBlock a → bm.dagState.containsBlock a
  keys : ds.gcDepth = 0 → ∀ k ∈ bm.missingAncestors, GENESIS_ROUND < k.round

theorem genesisKeys_new (ds : DagState) : GenesisKeys ds (new ds) where
  gcDepth_eq := rfl
  held _ _ ha := ha
  keys _ k hk := by simp [new] at hk

theorem gcRound_of_gcDepth {s : DagState} (h : s.gcDepth = 0) : s.gcRound = GENESIS_ROUND := by
  simp [DagState.gcRound, DagState.calculateGcRound, h]

theorem gcEnabled_eq_false_iff {s : DagState} : s.gcEnabled = false ↔ s.gcDepth = 0 := by
  simp [DagState.gcEnabled]

variable {ds : DagState}

theorem GenesisKeys.acceptStep {acc acc' : BlockManager × List VerifiedBlock × Finset BlockRef}
    {block : VerifiedBlock} (hg : GenesisKeys ds acc.1)
    (hvalid : ∀ a ∈ block.ancestors, a.round = GENESIS_ROUND → ds.containsBlock a)
    (h : acceptStep checkAncestors false acc block = .ok acc') : GenesisKeys ds acc'.1 := by
  obtain ⟨hgrow, hkeys⟩ := acceptStep_missingAncestors checkAncestors h
  refine ⟨(acceptStep_gcDepth checkAncestors h).trans hg.gcDepth_eq,
    fun h0 a ha => hgrow a (hg.held h0 a ha), fun h0 k hk => ?_⟩
  rcases hkeys k hk with hk | ⟨hanc, hnot⟩
  · exact hg.keys h0 k hk
  · -- a genesis-round ancestor is held, so it is not missing
    by_contra hround
    have hheld := hg.held h0 k (hvalid k hanc (by unfold GENESIS_ROUND at hround ⊢; omega))
    rw [hnot] at hheld
    contradiction

theorem GenesisKeys.run {bm bm' : BlockManager} {op : Op} (hg : GenesisKeys ds bm)
    (hvalid : ∀ b ∈ op.blocks, ∀ a ∈ b.ancestors, a.round = GENESIS_ROUND → ds.containsBlock a)
    (h : op.run checkAncestors bm = .ok bm') : GenesisKeys ds bm' := by
  cases op with
  | tryAcceptBlocks blocks =>
    rw [Op.run, except_map_eq_ok] at h
    obtain ⟨⟨bm₁, accepted, missing⟩, h₁, rfl⟩ := h
    refine foldlM_except_induction (P := fun acc => GenesisKeys ds acc.1) hg ?_ h₁
    intro acc b acc' hb hacc hstep
    exact hacc.acceptStep checkAncestors (hvalid b ((List.mem_insertionSort _).mp hb)) hstep
  | tryFindBlocks blockRefs =>
    cases h
    obtain ⟨hds, hkeys⟩ := tryFindBlocks_spec bm blockRefs
    refine ⟨hds ▸ hg.gcDepth_eq, fun h0 a ha => hds ▸ hg.held h0 a ha, fun h0 k hk => ?_⟩
    rcases hkeys k hk with hk | hk
    · exact hg.keys h0 k hk
    · rwa [gcRound_of_gcDepth (hg.gcDepth_eq.trans h0)] at hk
  | tryAcceptCommittedBlocks blocks =>
    rw [Op.run, except_map_eq_ok] at h
    obtain ⟨⟨bm₁, accepted⟩, h₁, rfl⟩ := h
    unfold tryAcceptCommittedBlocks at h₁
    split_ifs at h₁ with hgc
    · cases h₁
      exact hg
    -- with GC enabled the GC depth is not zero, and only it has to be kept
    · simp only [except_bind_eq_ok] at h₁
      obtain ⟨⟨bm₂, accepted₂, missing⟩, h₂, h₁⟩ := h₁
      split_ifs at h₁
      cases h₁
      have hne : ds.gcDepth ≠ 0 := fun h0 => hgc (by simp [Iff.mpr gcEnabled_eq_false_iff (hg.gcDepth_eq.trans h0)])
      exact ⟨(tryAcceptBlocksInternal_gcDepth checkAncestors h₂).trans hg.gcDepth_eq,
        fun h0 => absurd h0 hne, fun h0 => absurd h0 hne⟩
  | tryUnsuspendBlocksForLatestGcRound =>
    simp only [Op.run, tryUnsuspendBlocksForLatestGcRound] at h
    split_ifs at h with hgc
    · cases h
      exact hg
    · have hne : ds.gcDepth ≠ 0 := fun h0 => hgc (by simp [Iff.mpr gcEnabled_eq_false_iff (hg.gcDepth_eq.trans h0)])
      exact ⟨(unsuspendBelowGcRoundLoop_gcDepth checkAncestors h).trans hg.gcDepth_eq,
        fun h0 => absurd h0 hne, fun h0 => absurd h0 hne⟩
  | commit commitRound =>
    cases h
    -- only the last commit round changes
    exact ⟨hg.gcDepth_eq, hg.held, hg.keys⟩

theorem GenesisKeys.runOps {bm bm' : BlockManager} {ops : List Op} (hg : GenesisKeys ds bm)
    (hvalid : GenesisAncestorsHeld ds ops) (h : runOps checkAncestors ops bm = .ok bm') : GenesisKeys ds bm' :=
  foldlM_except_induction (P := GenesisKeys ds) hg
    (fun _ op _ hop hacc hstep => hacc.run checkAncestors (hvalid op hop) hstep) h

end Genesis

section Clean

variable {bm : BlockManager}

variable (checkAncestors :
  VerifiedBlock → List (Option VerifiedBlock) → Bool → ℕ → Except Panic (Except ConsensusError Unit))

theorem verifyBlockTimestampsAndAccept_ne_gc
    (hcheck : ∀ b a g r p, checkAncestors b a g r = .error p →
      p = .emptyAncestorSlot b.reference ∨ p = .ancestorsMismatch b.reference)
    {bm : BlockManager} {l : List VerifiedBlock} {p : Panic}
    (h : bm.verifyBlockTimestampsAndAccept checkAncestors l = .error p) : ∀ r, p ≠ .gcMissingAncestorSuspended r :=
  verifyBlockTimestampsAndAccept_error_of checkAncestors (P := fun p => ∀ r, p ≠ .gcMissingAncestorSuspended r)
    (fun _ _ _ => Panic.noConfusion)
    (fun b _ _ _ _ hc r => by rcases hcheck _ _ _ _ _ hc with rfl | rfl <;> exact Panic.noConfusion)
    (fun _ => ⟨fun _ => Panic.noConfusion, fun _ => Panic.noConfusion, fun _ => Panic.noConfusion⟩) h

theorem Indexed.above_of_keys_above {bm : BlockManager} (hi : bm.Indexed) {g : ℕ}
    (hkeys : ∀ k ∈ bm.missingAncestors, g < k.round) :
    (∀ k ∈ bm.missingBlocks, g < k.round) ∧ ∀ c ∈ bm.suspendedBlocks, g < c.round := by
  refine ⟨fun k hk => hkeys k (hi.missingBlocks_listed k hk), fun c hc => ?_⟩
  -- a suspended block waits on a missing reference of a lower round
  obtain ⟨s, hs⟩ := Option.isSome_iff_exists.mp (AList.lookup_isSome.mpr hc)
  obtain ⟨⟨m, hm⟩, hanc⟩ := hi.suspended_missing c s hs
  obtain ⟨cs, hcs, -⟩ := hi.waits_iff_listed.mp ⟨s, hs, hm⟩
  have hkey := hkeys m (AList.lookup_isSome.mp (by simp [hcs]))
  have hround : m.round < c.round := by
    rw [← hi.suspended_reference c s hs, VerifiedBlock.reference_round]
    exact s.block.round_lt_of_mem_ancestors (hanc m hm)
  omega

/-- From every state a run of the block manager reaches, on blocks whose genesis-round
ancestors are held, `try_unsuspend_blocks_for_latest_gc_round` does not reach its
`assert!`, and when it returns, no missing reference, missing block or suspended block is
at or below the GC round. -/
theorem tryUnsuspendBlocksForLatestGcRound_clean
    (hcheck : ∀ b a g r p, checkAncestors b a g r = .error p →
      p = .emptyAncestorSlot b.reference ∨ p = .ancestorsMismatch b.reference)
    {ds : DagState} {ops : List Op} {bm : BlockManager} (hheld : GenesisAncestorsHeld ds ops)
    (hreach : runOps checkAncestors ops (new ds) = .ok bm) :
    (∀ r, bm.tryUnsuspendBlocksForLatestGcRound checkAncestors ≠ .error (.gcMissingAncestorSuspended r)) ∧
    ∀ bm', bm.tryUnsuspendBlocksForLatestGcRound checkAncestors = .ok bm' →
      (∀ k ∈ bm'.missingAncestors, bm.dagState.gcRound < k.round) ∧
      (∀ k ∈ bm'.missingBlocks, bm.dagState.gcRound < k.round) ∧
      ∀ c ∈ bm'.suspendedBlocks, bm.dagState.gcRound < c.round := by
  have hi : bm.Indexed := (indexed_new ds).runOps checkAncestors hreach
  cases hgc : bm.dagState.gcEnabled with
  | false =>
    -- GC disabled: the call returns at once, and the GC round is the genesis round
    rw [tryUnsuspendBlocksForLatestGcRound, if_pos (by simp [hgc])]
    have hg := (genesisKeys_new ds).runOps checkAncestors hheld hreach
    have h0 : bm.dagState.gcDepth = 0 := gcEnabled_eq_false_iff.mp hgc
    have hkeys : ∀ k ∈ bm.missingAncestors, bm.dagState.gcRound < k.round := by
      rw [gcRound_of_gcDepth h0]
      exact hg.keys (hg.gcDepth_eq.symm.trans h0)
    refine ⟨fun r h => (by cases h), ?_⟩
    rintro bm' ⟨⟩
    exact ⟨hkeys, hi.above_of_keys_above hkeys⟩
  | true =>
    obtain ⟨herror, hok⟩ := @unsuspendBelowGcRoundLoop_spec checkAncestors bm.dagState.gcRound _ _ hi le_rfl
    rw [tryUnsuspendBlocksForLatestGcRound, if_neg (by simp [hgc])]
    refine ⟨fun r h => ?_, fun bm' h => ?_⟩
    · obtain ⟨bm₀, l, hverify⟩ := herror _ h
      exact verifyBlockTimestampsAndAccept_ne_gc checkAncestors hcheck hverify r rfl
    obtain ⟨hi', hkeys⟩ := hok bm' h
    exact ⟨hkeys, hi'.above_of_keys_above hkeys⟩

/-- The trap's DAG state with a GC depth of one: `R` is suspended on the four round-one
blocks, and a commit at round four moves the GC round to three. -/
def gcDagState : DagState := { trapDagState with gcDepth := 1 }

theorem tryUnsuspendBlocksForLatestGcRound_clean_trap :
    ∃ bm, runOps SignedBlockVerifier.checkAncestors [.tryAcceptBlocks [trapR], .commit 4] (new gcDagState) = .ok bm ∧
      bm.dagState.gcEnabled = true ∧
      (∀ r, bm.tryUnsuspendBlocksForLatestGcRound SignedBlockVerifier.checkAncestors ≠
        .error (.gcMissingAncestorSuspended r)) ∧
      ∀ bm', bm.tryUnsuspendBlocksForLatestGcRound SignedBlockVerifier.checkAncestors = .ok bm' →
        (∀ k ∈ bm'.missingAncestors, bm.dagState.gcRound < k.round) ∧
        (∀ k ∈ bm'.missingBlocks, bm.dagState.gcRound < k.round) ∧
        ∀ c ∈ bm'.suspendedBlocks, bm.dagState.gcRound < c.round := by
  have hheld : GenesisAncestorsHeld gcDagState [.tryAcceptBlocks [trapR], .commit 4] := by
    unfold GenesisAncestorsHeld
    decide
  have hcheck : ∀ b a g r p, SignedBlockVerifier.checkAncestors b a g r = .error p →
      p = .emptyAncestorSlot b.reference ∨ p = .ancestorsMismatch b.reference :=
    fun _ _ _ _ _ hp => SignedBlockVerifier.checkAncestors_error hp
  have hgc : (runOps SignedBlockVerifier.checkAncestors [.tryAcceptBlocks [trapR], .commit 4]
      (new gcDagState)).toOption.map (·.dagState.gcEnabled) = some true := by decide
  rcases h : runOps SignedBlockVerifier.checkAncestors [.tryAcceptBlocks [trapR], .commit 4] (new gcDagState) with
    p | bm
  · rw [h] at hgc
    contradiction
  · rw [h] at hgc
    have hgc' : bm.dagState.gcEnabled = true := by simpa [Except.toOption] using hgc
    exact ⟨bm, rfl, hgc', tryUnsuspendBlocksForLatestGcRound_clean SignedBlockVerifier.checkAncestors hcheck hheld h⟩

end Clean

end BlockManager

end Iota.Consensus
