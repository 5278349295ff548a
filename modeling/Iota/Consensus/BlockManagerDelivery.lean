import Iota.Consensus.BlockManagerIndex
import Iota.Lib.DependencyOrder

/-! Delivery by the block manager.  With GC disabled and the test verifier
that accepts everything, the blocks of a set closed under ancestors, fed to
`try_accept_blocks` in any order and in any batches, all come out, each once,
every block after its ancestors; and nothing is left suspended or missing.
The DAG state's own checks still apply: a block from the future, or a second
block in a slot of the own authority, is a panic, so the set has neither.

The argument: every delivered block is held or suspended; a suspended block
misses only blocks that are not held, and every ancestor it does not miss is
held.  At the end a suspended block of least round would miss a block of the
set that is neither held nor suspended. -/

namespace Iota.Consensus

open Iota.Lib

namespace BlockManager

/-! ### The timestamp check when the verifier accepts everything -/

section Noop

variable {ds : DagState} {toAccept : AList (fun _ : BlockRef => VerifiedBlock)} {toReject : Finset BlockRef}
  {block : BlockRef}

theorem resolveAncestor_eq_some {r : BlockRef} (h : (ds.getBlock r).isSome ∨ (toAccept.lookup r).isSome) :
    ∃ found, resolveAncestor ds toAccept toReject block r = .ok (some (some found)) := by
  unfold resolveAncestor
  cases hg : ds.getBlock r with
  | some found => exact ⟨found, rfl⟩
  | none =>
    cases hl : toAccept.lookup r with
    | some found => exact ⟨found, rfl⟩
    | none => simp [hg, hl] at h

theorem resolveAncestors_eq_some :
    ∀ {l : List BlockRef}, (∀ a ∈ l, (ds.getBlock a).isSome ∨ (toAccept.lookup a).isSome) →
      ∃ founds, resolveAncestors ds toAccept toReject block l = .ok (some founds)
  | [], _ => ⟨[], rfl⟩
  | r :: rest, h => by
    obtain ⟨found, hfound⟩ : ∃ found, resolveAncestor ds toAccept toReject block r = .ok (some (some found)) :=
      resolveAncestor_eq_some (h r List.mem_cons_self)
    obtain ⟨founds, hfounds⟩ := resolveAncestors_eq_some (fun a ha => h a (List.mem_cons_of_mem r ha))
    exact ⟨some found :: founds, by rw [resolveAncestors, hfound, except_ok_bind]; simp [hfounds]⟩

/-- The blocks to accept, keyed by reference, in the order they are checked. -/
abbrev insertAll (acc : AList (fun _ : BlockRef => VerifiedBlock)) (l : List VerifiedBlock) :
    AList (fun _ : BlockRef => VerifiedBlock) :=
  l.foldl (fun m b => m.insert b.reference b) acc

theorem foldlM_verifyTimestampsStep_noop :
    ∀ {l : List VerifiedBlock} {acc : AList (fun _ : BlockRef => VerifiedBlock)} {held : BlockRef → Prop},
      (∀ a, held a → (ds.getBlock a).isSome ∨ (acc.lookup a).isSome) →
      DepsBefore VerifiedBlock.reference VerifiedBlock.ancestors held l →
      l.foldlM (verifyTimestampsStep NoopBlockVerifier.checkAncestors ds) (acc, ∅) = .ok (insertAll acc l, ∅)
  | [], _, _, _, _ => rfl
  | b :: l, acc, held, hheld, ⟨hb, hl⟩ => by
    obtain ⟨founds, hfounds⟩ : ∃ founds, resolveAncestors ds acc ∅ b.reference b.ancestors = .ok (some founds) :=
      resolveAncestors_eq_some (fun a ha => hheld a (hb a ha))
    have hstep : verifyTimestampsStep NoopBlockVerifier.checkAncestors ds (acc, ∅) b =
        .ok (acc.insert b.reference b, ∅) := by
      rw [verifyTimestampsStep]
      simp [hfounds, NoopBlockVerifier.checkAncestors]
    rw [List.foldlM_cons, hstep, except_ok_bind]
    refine foldlM_verifyTimestampsStep_noop (fun a ha => ?_) hl
    rcases ha with ha | rfl
    · rcases hheld a ha with hg | hacc
      · exact .inl hg
      · by_cases hab : a = b.reference
        · subst hab
          exact .inr (by simp [AList.lookup_insert])
        · rw [AList.lookup_insert_ne hab]
          exact .inr hacc
    · simp [AList.lookup_insert]

theorem lookup_insertAll :
    ∀ {l : List VerifiedBlock} {acc : AList (fun _ : BlockRef => VerifiedBlock)} {k : BlockRef}
      {v : VerifiedBlock}, (insertAll acc l).lookup k = some v → acc.lookup k = some v ∨ v ∈ l ∧ v.reference = k
  | [], _, _, _, h => .inl h
  | b :: l, acc, k, v, h => by
    have h' : (insertAll (acc.insert b.reference b) l).lookup k = some v := h
    rcases lookup_insertAll h' with h | ⟨hv, hk⟩
    · by_cases hkb : k = b.reference
      · subst hkb
        rw [AList.lookup_insert, Option.some.injEq] at h
        exact .inr ⟨h ▸ List.mem_cons_self, h ▸ rfl⟩
      · rw [AList.lookup_insert_ne hkb] at h
        exact .inl h
    · exact .inr ⟨List.mem_cons_of_mem b hv, hk⟩

theorem lookup_insertAll_of_not_mem :
    ∀ {l : List VerifiedBlock} {acc : AList (fun _ : BlockRef => VerifiedBlock)} {k : BlockRef},
      k ∉ l.map VerifiedBlock.reference → (insertAll acc l).lookup k = acc.lookup k
  | [], _, _, _ => rfl
  | b :: l, acc, k, hk => by
    rw [List.map_cons, List.mem_cons, not_or] at hk
    show (insertAll (acc.insert b.reference b) l).lookup k = _
    rw [lookup_insertAll_of_not_mem hk.2, AList.lookup_insert_ne hk.1]

theorem lookup_insertAll_of_mem :
    ∀ {l : List VerifiedBlock} {acc : AList (fun _ : BlockRef => VerifiedBlock)} {b : VerifiedBlock},
      (l.map VerifiedBlock.reference).Nodup → b ∈ l → (insertAll acc l).lookup b.reference = some b
  | [], _, _, _, hb => absurd hb List.not_mem_nil
  | x :: l, acc, b, hnodup, hb => by
    rw [List.map_cons, List.nodup_cons] at hnodup
    show (insertAll (acc.insert x.reference x) l).lookup b.reference = _
    rcases List.mem_cons.mp hb with rfl | hb
    · rw [lookup_insertAll_of_not_mem hnodup.1, AList.lookup_insert]
    · exact lookup_insertAll_of_mem hnodup.2 hb

theorem valuesAscending_insertAll {l : List VerifiedBlock} (hnodup : (l.map VerifiedBlock.reference).Nodup) :
    (valuesAscending (insertAll ∅ l)).Perm l ∧
      (valuesAscending (insertAll ∅ l)).Pairwise (fun x y => x.reference < y.reference) := by
  have hkey : ∀ k v, (insertAll ∅ l).lookup k = some v → v ∈ l ∧ v.reference = k := fun k v h =>
    (lookup_insertAll h).resolve_left (by simp [AList.lookup_empty])
  have hsorted : (valuesAscending (insertAll ∅ l)).Pairwise (fun x y => x.reference < y.reference) :=
    pairwise_valuesAscending fun kx ky x y hx hy hlt => by
      rw [(hkey kx x hx).2, (hkey ky y hy).2]
      exact hlt
  refine ⟨(List.perm_ext_iff_of_nodup ?_ (List.Nodup.of_map _ hnodup)).mpr fun v => ?_, hsorted⟩
  · exact hsorted.imp fun hlt => ne_of_apply_ne VerifiedBlock.reference (ne_of_lt hlt)
  · rw [mem_valuesAscending]
    exact ⟨fun ⟨k, hk⟩ => (hkey k v hk).1, fun hv => ⟨v.reference, lookup_insertAll_of_mem hnodup hv⟩⟩

theorem verifyBlockTimestampsAndAccept_noop {bm : BlockManager} {l : List VerifiedBlock}
    (horder : DepsBefore VerifiedBlock.reference VerifiedBlock.ancestors
      (fun a => bm.dagState.containsBlock a = true) l)
    (hgetBlock : ∀ a, bm.dagState.containsBlock a → (bm.dagState.getBlock a).isSome)
    (hnodup : (l.map VerifiedBlock.reference).Nodup)
    (hfresh : ∀ b ∈ l, bm.dagState.containsBlock b.reference = false)
    (hround : ∀ b ∈ l, b.round ≠ GENESIS_ROUND) (htime : ∀ b ∈ l, b.timestampMs ≤ bm.dagState.nowMs)
    (hown : ∀ b ∈ l, b.author = bm.dagState.ownIndex → ∀ b' ∈ bm.dagState.blocks ++ l, b'.slot = b.slot → b' = b) :
    ∃ verified, bm.verifyBlockTimestampsAndAccept NoopBlockVerifier.checkAncestors l =
        .ok ({ bm with dagState := { bm.dagState with blocks := bm.dagState.blocks ++ verified } }, verified) ∧
      verified.Perm l ∧ verified.Pairwise (fun x y => x.round ≤ y.round) := by
  obtain ⟨hperm, hsorted⟩ := valuesAscending_insertAll hnodup
  have hmem : ∀ b, b ∈ valuesAscending (insertAll ∅ l) ↔ b ∈ l := fun b => hperm.mem_iff
  have hfold : l.foldlM (verifyTimestampsStep NoopBlockVerifier.checkAncestors bm.dagState) (∅, ∅) =
      .ok (insertAll ∅ l, ∅) :=
    foldlM_verifyTimestampsStep_noop (fun a ha => .inl (hgetBlock a ha)) horder
  have haccept := DagState.acceptBlocks_eq_ok_append (s := bm.dagState)
    (fun b hb => hround b ((hmem b).mp hb)) (fun b hb => hfresh b ((hmem b).mp hb))
    ((hperm.map VerifiedBlock.reference).nodup_iff.mpr hnodup) (fun b hb => htime b ((hmem b).mp hb))
    (fun b hb hauthor b' hb' hslot => hown b ((hmem b).mp hb) hauthor b' (by
      rw [List.mem_append] at hb' ⊢
      exact hb'.imp_right (hmem b').mp) hslot)
  refine ⟨valuesAscending (insertAll ∅ l), ?_, hperm, hsorted.imp fun hlt => BlockRef.round_le_of_le (le_of_lt hlt)⟩
  rw [verifyBlockTimestampsAndAccept, hfold, except_ok_bind]
  simp only [haccept, except_ok_bind]

end Noop

/-! ### What the unsuspension loop leaves alone -/

section Loop

theorem lookup_of_tryUnsuspendChildrenBlocksLoop :
    ∀ {n : ℕ} {bm bm' : BlockManager} {toProcess : List BlockRef} {unsuspended out : List VerifiedBlock},
      tryUnsuspendChildrenBlocksLoop n bm toProcess unsuspended = .ok (bm', out) →
        ∀ m cs, bm'.missingAncestors.lookup m = some cs → bm.missingAncestors.lookup m = some cs
  | 0, _, _, _, _, _, h => by
    cases h
    exact fun _ _ => id
  | _ + 1, _, _, [], _, _, h => by
    cases h
    exact fun _ _ => id
  | n + 1, bm, bm', r :: toProcess, unsuspended, out, h => by
    unfold tryUnsuspendChildrenBlocksLoop at h
    split at h
    · exact lookup_of_tryUnsuspendChildrenBlocksLoop h
    · rw [except_bind_eq_ok] at h
      obtain ⟨⟨bm₁, toProcess₁, unsuspended₁⟩, hfold, hloop⟩ := h
      -- releasing children leaves `missing_ancestors` as the erasure of `r` made it
      have hbm₁ : bm₁.missingAncestors = (bm.missingAncestors.erase r) :=
        foldlM_except_induction (P := fun acc => acc.1.missingAncestors = bm.missingAncestors.erase r) rfl
          (fun acc c acc' _ hacc hstep => by
            obtain ⟨bm₂, toProcess₂, unsuspended₂⟩ := acc
            simp only [unsuspendChild, except_bind_eq_ok] at hstep
            obtain ⟨⟨bm₃, o⟩, h₃, hstep⟩ := hstep
            have hshape := tryUnsuspendBlock_shape h₃
            cases o <;> simp only [Except.ok.injEq] at hstep <;> subst hstep <;> rw [hshape] <;> exact hacc)
          hfold
      intro m cs hm
      have hm₁ := lookup_of_tryUnsuspendChildrenBlocksLoop hloop m cs hm
      rw [hbm₁] at hm₁
      by_cases hmr : m = r
      · subst hmr
        simp [AList.lookup_erase] at hm₁
      · rwa [AList.lookup_erase_ne hmr] at hm₁

theorem Ordered.depsBefore {start : BlockRef} :
    ∀ {Q : BlockRef → Prop} {unsuspended : List VerifiedBlock}, Ordered Q start unsuspended →
      DepsBefore VerifiedBlock.reference VerifiedBlock.ancestors (fun a => Q a ∨ a = start) unsuspended
  | _, [], _ => trivial
  | Q, b :: unsuspended, h => by
    refine ⟨fun a ha => ?_, ?_⟩
    · rcases h 0 (Nat.zero_lt_succ _) a ha with hq | rfl | ⟨c, hc, -⟩
      · exact .inl hq
      · exact .inr rfl
      · simp at hc
    · have htail : Ordered (fun a => Q a ∨ a = b.reference) start unsuspended := by
        intro i hi a ha
        rcases h (i + 1) (Nat.succ_lt_succ hi) a ha with hq | rfl | ⟨c, hc, rfl⟩
        · exact .inl (.inl hq)
        · exact .inr (.inl rfl)
        · rw [List.take_succ_cons, List.mem_cons] at hc
          rcases hc with rfl | hc
          · exact .inl (.inr rfl)
          · exact .inr (.inr ⟨c, hc, rfl⟩)
      refine htail.depsBefore.mono fun a ha => ?_
      rcases ha with (hq | hb) | hs
      · exact .inl (.inl hq)
      · exact .inr hb
      · exact .inl (.inr hs)

end Loop

/-! ### The outcomes of accepting one block -/

section AcceptOne

variable {bm bm' : BlockManager} {b : VerifiedBlock}

theorem tryAcceptOneBlock_processed (h : bm.tryAcceptOneBlock b = (bm', .processed)) :
    bm' = bm ∧ (b.reference ∈ bm.suspendedBlocks ∨ bm.dagState.containsBlock b.reference) := by
  unfold tryAcceptOneBlock at h
  dsimp only at h
  by_cases hseen : b.reference ∈ bm.suspendedBlocks ∨ bm.dagState.containsBlock b.reference
  · rw [if_pos hseen] at h
    cases h
    exact ⟨rfl, hseen⟩
  rw [if_neg hseen] at h
  split_ifs at h <;> simp at h

theorem tryAcceptOneBlock_skipped (h : bm.tryAcceptOneBlock b = (bm', .skipped)) :
    bm.dagState.gcEnabled := by
  unfold tryAcceptOneBlock at h
  dsimp only at h
  split_ifs at h with hseen hgc <;> simp at h
  exact hgc.1

end AcceptOne

/-! ### The delivery invariant -/

section Delivery

/-- What a set of blocks must be for the block manager to deliver it: GC is
disabled, genesis blocks sit at the genesis round and the set's blocks above
it, references are distinct, no block is from the future or takes a slot of
the own authority that another block of the set takes, and every ancestor is
in the set or genesis. -/
structure Deliverable (ds₀ : DagState) (S : List VerifiedBlock) : Prop where
  gcDepth_eq : ds₀.gcDepth = 0
  genesis_round : ∀ g ∈ ds₀.genesis, g.round = GENESIS_ROUND
  nodup : (S.map VerifiedBlock.reference).Nodup
  round_pos : ∀ b ∈ S, GENESIS_ROUND < b.round
  timestamp_le : ∀ b ∈ S, b.timestampMs ≤ ds₀.nowMs
  own_slot : ∀ b ∈ S, ∀ b' ∈ S, b.author = ds₀.ownIndex → b.slot = b'.slot → b = b'
  closed : ∀ b ∈ S, ∀ a ∈ b.ancestors, (∃ b' ∈ S, b'.reference = a) ∨ ∃ g ∈ ds₀.genesis, g.reference = a

/-- The state once the blocks `seen` of `S` have been delivered and
`accepted` returned: the DAG state holds genesis and the accepted blocks, in
causal order; each delivered block is held or suspended; a suspended block is
of `S`, is not held, and misses exactly the ancestors that are not held; and
every entry of `missing_ancestors` lists a child. -/
structure Delivering (ds₀ : DagState) (S seen accepted : List VerifiedBlock) (bm : BlockManager) : Prop where
  indexed : bm.Indexed
  dagState : bm.dagState = { ds₀ with blocks := accepted }
  accepted_mem : ∀ b ∈ accepted, b ∈ S
  accepted_nodup : (accepted.map VerifiedBlock.reference).Nodup
  ordered : DepsBefore VerifiedBlock.reference VerifiedBlock.ancestors
    (fun a => ∃ g ∈ ds₀.genesis, g.reference = a) accepted
  seen_done : ∀ b ∈ seen, bm.dagState.containsBlock b.reference ∨ b.reference ∈ bm.suspendedBlocks
  suspended_mem : ∀ c s, bm.suspendedBlocks.lookup c = some s → s.block ∈ S
  suspended_not_held : ∀ c ∈ bm.suspendedBlocks, bm.dagState.containsBlock c = false
  covered : ∀ c s, bm.suspendedBlocks.lookup c = some s → ∀ a ∈ s.block.ancestors,
    bm.dagState.containsBlock a ∨ a ∈ s.missingAncestors
  listed_nonempty : ∀ m ∈ bm.missingAncestors, ∃ c, bm.Listed m c

variable {ds₀ : DagState} {S seen accepted : List VerifiedBlock} {bm bm' : BlockManager} {block : VerifiedBlock}

theorem delivering_new (hblocks : ds₀.blocks = []) : Delivering ds₀ S [] [] (new ds₀) where
  indexed := indexed_new ds₀
  dagState := by
    show ds₀ = { ds₀ with blocks := [] }
    rw [← hblocks]
  accepted_mem := by simp
  accepted_nodup := List.nodup_nil
  ordered := trivial
  seen_done := by simp
  suspended_mem := by simp [new, AList.lookup_empty]
  suspended_not_held := by simp [new]
  covered := by simp [new, AList.lookup_empty]
  listed_nonempty := by simp [new]

theorem containsBlock_withBlocks_append {ds : DagState} {l : List VerifiedBlock} {r : BlockRef} :
    ({ ds with blocks := ds.blocks ++ l } : DagState).containsBlock r ↔
      ds.containsBlock r ∨ ∃ b ∈ l, b.reference = r := by
  simp only [DagState.containsBlock_iff, List.mem_append, or_and_right, exists_or]
  rw [or_right_comm]

theorem lookup_insert_cases {β : Type} {s : AList (fun _ : BlockRef => β)} {r c : BlockRef} {v w : β}
    (h : (s.insert r v).lookup c = some w) : c = r ∧ w = v ∨ c ≠ r ∧ s.lookup c = some w := by
  by_cases hc : c = r
  · subst hc
    rw [AList.lookup_insert, Option.some.injEq] at h
    exact .inl ⟨rfl, h.symm⟩
  · rw [AList.lookup_insert_ne hc] at h
    exact .inr ⟨hc, h⟩

theorem Delivering.containsBlock_iff (hd : Delivering ds₀ S seen accepted bm) {r : BlockRef} :
    bm.dagState.containsBlock r ↔ (∃ g ∈ ds₀.genesis, g.reference = r) ∨ ∃ b ∈ accepted, b.reference = r := by
  rw [hd.dagState, DagState.containsBlock_iff, or_comm]

namespace Delivering

variable (hS : Deliverable ds₀ S) (hd : Delivering ds₀ S seen accepted bm)
include hS hd

theorem gcEnabled_eq_false : bm.dagState.gcEnabled = false := by
  rw [hd.dagState]
  simp [DagState.gcEnabled, hS.gcDepth_eq]

theorem getBlock_isSome {r : BlockRef} (hr : bm.dagState.containsBlock r) : (bm.dagState.getBlock r).isSome := by
  rw [hd.dagState] at hr ⊢
  exact @DagState.getBlock_isSome_of_containsBlock { ds₀ with blocks := accepted } hS.genesis_round
    (fun b hb => (hS.round_pos b (hd.accepted_mem b hb)).ne') _ hr

end Delivering

theorem Delivering.of_processed (hd : Delivering ds₀ S seen accepted bm)
    (h : bm.tryAcceptOneBlock block = (bm', .processed)) : Delivering ds₀ S (block :: seen) accepted bm' := by
  obtain ⟨rfl, hblock⟩ := tryAcceptOneBlock_processed h
  refine { hd with seen_done := fun b hb => ?_ }
  rcases List.mem_cons.mp hb with rfl | hb
  · exact hblock.symm
  · exact hd.seen_done b hb

theorem Delivering.of_suspended {toFetch : Finset BlockRef} (hS : Deliverable ds₀ S)
    (hd : Delivering ds₀ S seen accepted bm) (hblock : block ∈ S)
    (h : bm.tryAcceptOneBlock block = (bm', .suspended toFetch)) :
    Delivering ds₀ S (block :: seen) accepted bm' := by
  have hi := hd.indexed.tryAcceptOneBlock_suspended h
  have hgc := hd.gcEnabled_eq_false hS
  obtain ⟨bm₁, ancestors, hm, -, hmem, -, hheld, rfl⟩ := tryAcceptOneBlock_eq_suspended h
  have hdag : bm₁.dagState = bm.dagState := hm.dagState
  have hlookup : ∀ c s, (bm₁.suspendedBlocks.insert block.reference ⟨block, ancestors.toFinset⟩).lookup c = some s →
      c = block.reference ∧ s = ⟨block, ancestors.toFinset⟩ ∨
        c ≠ block.reference ∧ bm.suspendedBlocks.lookup c = some s := fun c s hs => by
    rw [hm.suspendedBlocks] at hs
    exact lookup_insert_cases hs
  exact
    { indexed := hi
      dagState := hdag.trans hd.dagState
      accepted_mem := hd.accepted_mem
      accepted_nodup := hd.accepted_nodup
      ordered := hd.ordered
      seen_done := fun b hb => by
        show bm₁.dagState.containsBlock _ ∨ _ ∈ bm₁.suspendedBlocks.insert _ _
        rw [hdag, AList.mem_insert, hm.suspendedBlocks]
        rcases List.mem_cons.mp hb with rfl | hb
        · exact .inr (.inl rfl)
        · exact (hd.seen_done b hb).imp_right .inr
      suspended_mem := fun c s hs => by
        rcases hlookup c s hs with ⟨-, rfl⟩ | ⟨-, hs⟩
        · exact hblock
        · exact hd.suspended_mem c s hs
      suspended_not_held := fun c hc => by
        show bm₁.dagState.containsBlock c = false
        rw [hdag]
        rcases (AList.mem_insert _).mp hc with rfl | hc
        · exact hheld
        · exact hd.suspended_not_held c (hm.suspendedBlocks ▸ hc)
      covered := fun c s hs a ha => by
        show bm₁.dagState.containsBlock a ∨ _
        rw [hdag]
        rcases hlookup c s hs with ⟨-, rfl⟩ | ⟨-, hs⟩
        · -- without GC, every ancestor that is not held is missed
          cases hda : bm.dagState.containsBlock a
          · refine .inr (List.mem_toFinset.mpr ((hmem a).mpr ⟨ha, hda, ?_⟩))
            simp [DagState.gcCollects, hgc]
          · exact .inl rfl
        · exact hd.covered c s hs a ha
      listed_nonempty := fun m hm' => by
        rcases (hm.mem_missingAncestors m).mp hm' with hm' | hma
        · obtain ⟨c, hc⟩ := hd.listed_nonempty m hm'
          exact ⟨c, (hm.listed m c).mpr (.inl hc)⟩
        · exact ⟨block.reference, (hm.listed m _).mpr (.inr ⟨hma, rfl⟩)⟩ }

theorem Delivering.of_accepted {bm₁ : BlockManager} {b : VerifiedBlock} (hS : Deliverable ds₀ S)
    (hd : Delivering ds₀ S seen accepted bm) (hblock : block ∈ S)
    (h : bm.tryAcceptOneBlock block = (bm₁, .accepted b)) :
    ∃ bm₂ unsuspended bm₃ verified, bm₁.tryUnsuspendChildrenBlocks block.reference = .ok (bm₂, unsuspended) ∧
      bm₂.verifyBlockTimestampsAndAccept NoopBlockVerifier.checkAncestors ([b] ++ unsuspended) =
        .ok (bm₃, verified) ∧
      Delivering ds₀ S (block :: seen) (accepted ++ verified) bm₃ := by
  have hgc := hd.gcEnabled_eq_false hS
  obtain ⟨rfl, rfl, hsus, hfresh, hanc⟩ := tryAcceptOneBlock_eq_accepted h
  -- without GC, every ancestor of the accepted block is held
  have hanc' : ∀ a ∈ b.ancestors, bm.dagState.containsBlock a = true := fun a ha =>
    (hanc a ha).resolve_right (by simp [DagState.gcCollects, hgc])
  obtain ⟨bm₂, unsuspended, hloop, hc, hdag, -⟩ :=
    tryUnsuspendChildrenBlocks_cascade (Q := fun a => bm.dagState.containsBlock a = true)
      (hd.indexed.eraseMissingBlock b.reference).toIndexedUpTo
      (fun c m hw => .inl (hd.indexed.waits_not_held c m hw)) hsus (by simp)
      (fun c s hs a ha => (hd.covered c s hs a ha).imp_right .inr)
  have hdag₂ : bm₂.dagState = bm.dagState := hdag
  -- what is known of each released block
  have hreleased : ∀ u ∈ unsuspended, u ∈ S ∧ bm.dagState.containsBlock u.reference = false := fun u hu => by
    obtain ⟨s₀, hs₀, hblock₀⟩ := hc.unsuspended_block u hu
    refine ⟨hblock₀ ▸ hd.suspended_mem _ s₀ hs₀, hd.suspended_not_held _ ?_⟩
    exact AList.lookup_isSome.mp (by simp [hs₀])
  have hl : ∀ u ∈ [b] ++ unsuspended, u ∈ S ∧ bm.dagState.containsBlock u.reference = false := fun u hu => by
    rcases List.mem_append.mp hu with hu | hu
    · rw [List.mem_singleton.mp hu]
      exact ⟨hblock, hfresh⟩
    · exact hreleased u hu
  have hnodup : (([b] ++ unsuspended).map VerifiedBlock.reference).Nodup := by
    rw [List.singleton_append, List.map_cons, List.nodup_cons]
    refine ⟨fun hmem => ?_, hc.unsuspended_nodup⟩
    obtain ⟨u, hu, hur⟩ := List.mem_map.mp hmem
    exact hc.start_not_unsuspended u hu hur
  have horder : DepsBefore VerifiedBlock.reference VerifiedBlock.ancestors
      (fun a => bm₂.dagState.containsBlock a = true) ([b] ++ unsuspended) := by
    rw [hdag₂]
    exact ⟨hanc', hc.ordered.depsBefore⟩
  obtain ⟨verified, hverify, hperm, hsorted⟩ := verifyBlockTimestampsAndAccept_noop horder
    (fun a ha => hdag₂ ▸ hd.getBlock_isSome hS (hdag₂ ▸ ha)) hnodup
    (fun u hu => hdag₂ ▸ (hl u hu).2) (fun u hu => (hS.round_pos u (hl u hu).1).ne')
    (fun u hu => by rw [hdag₂, hd.dagState]; exact hS.timestamp_le u (hl u hu).1)
    (fun u hu hauthor u' hu' hslot => by
      rw [hdag₂, hd.dagState] at hauthor hu'
      have hu'S : u' ∈ S := by
        rcases List.mem_append.mp hu' with hu' | hu'
        · exact hd.accepted_mem u' hu'
        · exact (hl u' hu').1
      exact (hS.own_slot u (hl u hu).1 u' hu'S hauthor hslot.symm).symm)
  refine ⟨bm₂, unsuspended, _, verified, hloop, hverify, ?_⟩
  have hver : ∀ v, v ∈ verified ↔ v ∈ [b] ++ unsuspended := fun v => hperm.mem_iff
  have hheld₃ : ∀ r, ({ bm₂.dagState with blocks := bm₂.dagState.blocks ++ verified } : DagState).containsBlock r ↔
      bm.dagState.containsBlock r ∨ ∃ v ∈ verified, v.reference = r := fun r => by
    rw [containsBlock_withBlocks_append, hdag₂]
  -- the released blocks are exactly those now held that were not before
  have hreleased_held : ∀ m, Released b.reference unsuspended m →
      ({ bm₂.dagState with blocks := bm₂.dagState.blocks ++ verified } : DagState).containsBlock m := fun m hm => by
    rw [hheld₃]
    rcases hm with rfl | ⟨u, hu, rfl⟩
    · exact .inr ⟨b, (hver b).mpr (by simp), rfl⟩
    · exact .inr ⟨u, (hver u).mpr (List.mem_append_right _ hu), rfl⟩
  have hsus₂ : ∀ c ∈ bm₂.suspendedBlocks, c ∈ bm.suspendedBlocks := fun c hc' =>
    (hc.suspended_or_unsuspended c).mpr (.inl hc')
  exact
    { indexed := indexed_of_verifyBlockTimestampsAndAccept NoopBlockVerifier.checkAncestors hc
        (fun u hu => by
          rcases List.mem_append.mp hu with hu | hu
          · rw [List.mem_singleton.mp hu]
            exact .inl rfl
          · exact .inr ⟨u, hu, rfl⟩) hverify
      dagState := by
        show { bm₂.dagState with blocks := bm₂.dagState.blocks ++ verified } = _
        rw [hdag₂, hd.dagState]
      accepted_mem := fun v hv => by
        rcases List.mem_append.mp hv with hv | hv
        · exact hd.accepted_mem v hv
        · exact (hl v ((hver v).mp hv)).1
      accepted_nodup := by
        rw [List.map_append, List.nodup_append]
        refine ⟨hd.accepted_nodup, (hperm.map VerifiedBlock.reference).nodup_iff.mpr hnodup, ?_⟩
        -- an accepted block is held; a verified one was not
        rintro r hr r' hr' hrr
        obtain ⟨x, hx, rfl⟩ := List.mem_map.mp hr
        obtain ⟨y, hy, hyx⟩ := List.mem_map.mp hr'
        have hnot := (hl y ((hver y).mp hy)).2
        have hx' : bm.dagState.containsBlock x.reference := hd.containsBlock_iff.mpr (.inr ⟨x, hx, rfl⟩)
        rw [hrr, ← hyx, hnot] at hx'
        exact Bool.false_ne_true hx'
      ordered := by
        refine depsBefore_append.mpr ⟨hd.ordered, depsBefore_of_sorted hsorted ?_ ?_⟩
        · rintro x - d hd' y - rfl
          exact x.round_lt_of_mem_ancestors hd'
        · intro x hx d hd'
          rcases horder.held_or_mem x ((hver x).mp hx) d hd' with hheld | ⟨y, hy, rfl⟩
          · rw [hdag₂, hd.containsBlock_iff] at hheld
            exact .inl hheld
          · exact .inr ⟨y, (hver y).mpr hy, rfl⟩
      seen_done := fun b' hb' => by
        rcases List.mem_cons.mp hb' with rfl | hb'
        · exact .inl (hreleased_held _ (.inl rfl))
        · rcases hd.seen_done b' hb' with hheld | hsus'
          · exact .inl ((hheld₃ _).mpr (.inl hheld))
          · rcases (hc.suspended_or_unsuspended _).mp hsus' with hsus' | ⟨u, hu, hur⟩
            · exact .inr hsus'
            · exact .inl (hreleased_held _ (.inr ⟨u, hu, hur⟩))
      suspended_mem := fun c s hs => by
        obtain ⟨s₀, hs₀, hblock₀⟩ := hc.suspended_block c s hs
        exact hblock₀ ▸ hd.suspended_mem c s₀ hs₀
      suspended_not_held := fun c hc' => by
        show ({ bm₂.dagState with blocks := bm₂.dagState.blocks ++ verified } : DagState).containsBlock c = false
        rw [Bool.eq_false_iff, ne_eq, hheld₃, not_or]
        refine ⟨by simp [hd.suspended_not_held c (hsus₂ c hc')], ?_⟩
        -- a verified block was released, and so left the suspended map
        rintro ⟨v, hv, rfl⟩
        refine hc.released_not_suspended _ ?_ hc'
        rcases List.mem_append.mp ((hver v).mp hv) with hv | hv
        · exact .inl (by rw [List.mem_singleton.mp hv])
        · exact .inr ⟨v, hv, rfl⟩
      covered := fun c s hs a ha => by
        rcases hc.covered c s hs a ha with hq | hrel | hmiss
        · exact .inl ((hheld₃ a).mpr (.inl hq))
        · exact .inl (hreleased_held a hrel)
        · exact .inr hmiss
      listed_nonempty := fun m hm => by
        obtain ⟨cs, hcs⟩ := Option.isSome_iff_exists.mp (AList.lookup_isSome.mpr hm)
        have hcs₀ : bm.missingAncestors.lookup m = some cs := lookup_of_tryUnsuspendChildrenBlocksLoop hloop m cs hcs
        obtain ⟨c, cs', hcs', hc'⟩ := hd.listed_nonempty m (AList.lookup_isSome.mp (by simp [hcs₀]))
        rw [hcs₀, Option.some.injEq] at hcs'
        exact ⟨c, cs, hcs, hcs' ▸ hc'⟩ }

theorem Delivering.mono_seen {seen' : List VerifiedBlock} (hd : Delivering ds₀ S seen accepted bm)
    (h : ∀ b ∈ seen', b ∈ seen) : Delivering ds₀ S seen' accepted bm :=
  { hd with seen_done := fun b hb => hd.seen_done b (h b hb) }

theorem Delivering.acceptStep (hS : Deliverable ds₀ S) (hd : Delivering ds₀ S seen accepted bm)
    (hblock : block ∈ S) (acc : List VerifiedBlock) (missing : Finset BlockRef) :
    ∃ bm' verified missing', acceptStep NoopBlockVerifier.checkAncestors false (bm, acc, missing) block =
        .ok (bm', acc ++ verified, missing') ∧ Delivering ds₀ S (block :: seen) (accepted ++ verified) bm' := by
  rcases hres : bm.tryAcceptOneBlock block with ⟨bm₁, b | toFetch | - | -⟩
  · obtain ⟨bm₂, unsuspended, bm₃, verified, hloop, hverify, hd'⟩ := hd.of_accepted hS hblock hres
    have hverify' : bm₂.verifyBlockTimestampsAndAccept NoopBlockVerifier.checkAncestors (b :: unsuspended) =
        .ok (bm₃, verified) := hverify
    refine ⟨bm₃, verified, missing, ?_, hd'⟩
    simp [BlockManager.acceptStep, hres, hloop, hverify']
  · refine ⟨bm₁, [], missing ∪ toFetch, by simp [BlockManager.acceptStep, hres], ?_⟩
    rw [List.append_nil]
    exact hd.of_suspended hS hblock hres
  · refine ⟨bm₁, [], missing, by simp [BlockManager.acceptStep, hres], ?_⟩
    rw [List.append_nil]
    exact hd.of_processed hres
  · -- without GC nothing is skipped
    have := tryAcceptOneBlock_skipped hres
    rw [hd.gcEnabled_eq_false hS] at this
    cases this

theorem Delivering.tryAcceptBlocks (hS : Deliverable ds₀ S) (hd : Delivering ds₀ S seen accepted bm)
    {blocks : List VerifiedBlock} (hblocks : ∀ b ∈ blocks, b ∈ S) :
    ∃ bm' newly missing, bm.tryAcceptBlocks NoopBlockVerifier.checkAncestors blocks = .ok (bm', newly, missing) ∧
      Delivering ds₀ S (blocks ++ seen) (accepted ++ newly) bm' := by
  have hsorted := List.perm_insertionSort (fun a b : VerifiedBlock => a.round ≤ b.round) blocks
  obtain ⟨⟨bm', newly, missing⟩, hfold, hP⟩ :=
    @foldlM_except_exists_ok _ _ _ _
      (fun done (s : BlockManager × List VerifiedBlock × Finset BlockRef) =>
        Delivering ds₀ S (done ++ seen) (accepted ++ s.2.1) s.1)
      _ (bm, [], ∅) [] (by simpa using hd) (fun ⟨bm₁, acc, missing₁⟩ block done' hb hP => by
        obtain ⟨bm₂, verified, missing₂, hstep, hd'⟩ :=
          hP.acceptStep hS (hblocks block (hsorted.mem_iff.mp hb)) acc missing₁
        refine ⟨(bm₂, acc ++ verified, missing₂), hstep, ?_⟩
        rw [← List.append_assoc]
        refine hd'.mono_seen fun b hb' => ?_
        simp only [List.append_assoc, List.singleton_append, List.mem_append, List.mem_cons] at hb' ⊢
        tauto)
  refine ⟨bm', newly, missing, hfold, hP.mono_seen fun b hb => ?_⟩
  rw [List.nil_append, List.mem_append, hsorted.mem_iff]
  exact List.mem_append.mp hb

theorem Delivering.acceptBatches (hS : Deliverable ds₀ S) (hd : Delivering ds₀ S [] [] bm)
    {batches : List (List VerifiedBlock)} (hbatches : ∀ b ∈ batches.flatten, b ∈ S) :
    ∃ bm' accepted', bm.acceptBatches NoopBlockVerifier.checkAncestors batches = .ok (bm', accepted') ∧
      Delivering ds₀ S batches.flatten accepted' bm' := by
  obtain ⟨⟨bm', accepted'⟩, hfold, hP⟩ : ∃ r : BlockManager × List VerifiedBlock,
      bm.acceptBatches NoopBlockVerifier.checkAncestors batches = .ok r ∧
        Delivering ds₀ S ([] ++ batches).flatten r.2 r.1 := by
    unfold BlockManager.acceptBatches
    refine foldlM_except_exists_ok (P := fun done (s : BlockManager × List VerifiedBlock) =>
      Delivering ds₀ S done.flatten s.2 s.1) hd ?_
    -- each batch goes through `try_accept_blocks`, which keeps the invariant
    rintro ⟨bm₁, acc⟩ blocks done' hb hP
    obtain ⟨bm₂, newly, missing, hcall, hd'⟩ :=
      hP.tryAcceptBlocks hS fun b hb' => hbatches b (List.mem_flatten.mpr ⟨blocks, hb, hb'⟩)
    refine ⟨(bm₂, acc ++ newly), by simp [hcall], hd'.mono_seen fun b hb' => ?_⟩
    simp only [List.flatten_append, List.flatten_singleton, List.mem_append] at hb' ⊢
    exact hb'.symm
  exact ⟨bm', accepted', hfold, by simpa using hP⟩

theorem Delivering.not_suspended (hS : Deliverable ds₀ S) (hd : Delivering ds₀ S seen accepted bm)
    (hseen : ∀ b ∈ S, bm.dagState.containsBlock b.reference ∨ b.reference ∈ bm.suspendedBlocks) :
    ∀ n c s, bm.suspendedBlocks.lookup c = some s → s.block.round ≤ n → False := by
  intro n
  induction n with
  | zero =>
    intro c s hs hround
    have := hS.round_pos s.block (hd.suspended_mem c s hs)
    simp only [GENESIS_ROUND] at this
    omega
  | succ n ih =>
    intro c s hs hround
    obtain ⟨⟨m, hm⟩, hsub⟩ := hd.indexed.suspended_missing c s hs
    have hnot : bm.dagState.containsBlock m = false := hd.indexed.waits_not_held c m ⟨s, hs, hm⟩
    rcases hS.closed s.block (hd.suspended_mem c s hs) m (hsub m hm) with ⟨b', hb', rfl⟩ | ⟨g, hg, rfl⟩
    · rcases hseen b' hb' with hheld | hsus
      · simp [hnot] at hheld
      · -- the missing ancestor is suspended, at a lower round
        obtain ⟨s', hs'⟩ := Option.isSome_iff_exists.mp (AList.lookup_isSome.mpr hsus)
        have hlt : b'.reference.round < s.block.round := s.block.round_lt_of_mem_ancestors (hsub _ hm)
        have href := hd.indexed.suspended_reference _ s' hs'
        refine ih _ s' hs' ?_
        rw [← VerifiedBlock.reference_round, href]
        omega
    · have hheld : bm.dagState.containsBlock g.reference := hd.containsBlock_iff.mpr (.inl ⟨g, hg, rfl⟩)
      simp [hnot] at hheld

theorem alist_eq_empty_of_forall_not_mem {β : Type} {s : AList (fun _ : BlockRef => β)} (h : ∀ c, c ∉ s) :
    s = ∅ := by
  apply AList.ext
  rw [AList.empty_entries]
  cases hs : s.entries with
  | nil => rfl
  | cons x xs =>
    refine absurd (AList.mem_keys.mpr ?_) (h x.1)
    simp [AList.keys, List.keys, hs]

end Delivery

/-- Blocks of a set closed under ancestors, fed to `try_accept_blocks` in any
order and in any batches, with GC disabled and a verifier that accepts
everything: every block of the set is returned exactly once, each after its
ancestors (or with genesis ancestors), the DAG state holds exactly what was
returned, and nothing is left suspended or missing.  The set must keep to the
DAG state's checks: no block from the future, no two blocks in one slot of
the own authority, and nothing at the genesis round. -/
theorem acceptBatches_delivers {ds : DagState} {S : List VerifiedBlock} {batches : List (List VerifiedBlock)}
    (hgc : ds.gcDepth = 0) (hblocks : ds.blocks = []) (hgenesis : ∀ g ∈ ds.genesis, g.round = GENESIS_ROUND)
    (hnodup : (S.map VerifiedBlock.reference).Nodup) (hround : ∀ b ∈ S, GENESIS_ROUND < b.round)
    (htime : ∀ b ∈ S, b.timestampMs ≤ ds.nowMs)
    (hown : ∀ b ∈ S, ∀ b' ∈ S, b.author = ds.ownIndex → b.slot = b'.slot → b = b')
    (hclosed : ∀ b ∈ S, ∀ a ∈ b.ancestors, (∃ b' ∈ S, b'.reference = a) ∨ ∃ g ∈ ds.genesis, g.reference = a)
    (hperm : batches.flatten.Perm S) :
    ∃ bm accepted, (new ds).acceptBatches NoopBlockVerifier.checkAncestors batches = .ok (bm, accepted) ∧
      accepted.Perm S ∧
      DepsBefore VerifiedBlock.reference VerifiedBlock.ancestors (fun a => ∃ g ∈ ds.genesis, g.reference = a)
        accepted ∧
      bm.dagState.blocks = accepted ∧
      bm.suspendedBlocks = ∅ ∧ bm.missingAncestors = ∅ ∧ bm.missingBlocks = ∅ := by
  have hS : Deliverable ds S := ⟨hgc, hgenesis, hnodup, hround, htime, hown, hclosed⟩
  obtain ⟨bm, accepted, hrun, hd⟩ := (delivering_new hblocks).acceptBatches hS fun b hb => hperm.mem_iff.mp hb
  have hseen : ∀ b ∈ S, bm.dagState.containsBlock b.reference ∨ b.reference ∈ bm.suspendedBlocks :=
    fun b hb => hd.seen_done b (hperm.mem_iff.mpr hb)
  have hnone : ∀ c, c ∉ bm.suspendedBlocks := fun c hc => by
    obtain ⟨s, hs⟩ := Option.isSome_iff_exists.mp (AList.lookup_isSome.mpr hc)
    exact hd.not_suspended hS hseen _ c s hs le_rfl
  have hnoMA : ∀ m, m ∉ bm.missingAncestors := fun m hm => by
    obtain ⟨c, hl⟩ := hd.listed_nonempty m hm
    obtain ⟨s, hs, -⟩ := hd.indexed.waits_iff_listed.mpr hl
    exact hnone c (AList.lookup_isSome.mp (by simp [hs]))
  -- every block of the set is held, and so was returned
  have hmem : ∀ b ∈ S, b ∈ accepted := fun b hb => by
    have hheld := (hseen b hb).resolve_right (hnone _)
    rcases hd.containsBlock_iff.mp hheld with ⟨g, hg, hgb⟩ | ⟨y, hy, hyb⟩
    · have := congrArg BlockRef.round hgb
      simp only [VerifiedBlock.reference_round, hgenesis g hg] at this
      exact absurd this (hround b hb).ne
    · rwa [← List.inj_on_of_nodup_map hnodup (hd.accepted_mem y hy) hb hyb]
  refine ⟨bm, accepted, hrun, ?_, hd.ordered, by rw [hd.dagState], alist_eq_empty_of_forall_not_mem hnone,
    alist_eq_empty_of_forall_not_mem hnoMA, Finset.eq_empty_of_forall_notMem fun m hm =>
      hnoMA m (hd.indexed.missingBlocks_listed m hm)⟩
  exact (List.perm_ext_iff_of_nodup (List.Nodup.of_map _ hd.accepted_nodup) (List.Nodup.of_map _ hnodup)).mpr
    fun b => ⟨hd.accepted_mem b, hmem b⟩

/-- `R` comes first and waits for `A3`, `A0` and `A1`, which come in the next
batch, out of round order with `A2`. -/
theorem acceptBatches_delivers_trap :
    ∃ bm accepted, (new trapDagState).acceptBatches NoopBlockVerifier.checkAncestors
        [[trapR], [trapA3, trapA0, trapA1, trapA2]] = .ok (bm, accepted) ∧
      accepted.Perm [trapA0, trapA1, trapA2, trapA3, trapR] ∧
      DepsBefore VerifiedBlock.reference VerifiedBlock.ancestors
        (fun a => ∃ g ∈ trapDagState.genesis, g.reference = a) accepted ∧
      bm.dagState.blocks = accepted ∧
      bm.suspendedBlocks = ∅ ∧ bm.missingAncestors = ∅ ∧ bm.missingBlocks = ∅ :=
  acceptBatches_delivers (by decide) rfl (by decide) (by decide) (by decide) (by decide) (by decide) (by decide)
    (by decide)

/-- A block from the future is a panic of the DAG state, even alone and with
all its ancestors genesis. -/
def futureBlock : VerifiedBlock := trapBlock (trapRoundOne 1 2000) (by decide)

theorem acceptBatches_future_block_panics :
    (new trapDagState).acceptBatches NoopBlockVerifier.checkAncestors [[futureBlock]] =
      .error (.blockTimestampInFuture futureBlock.reference) := by
  decide

end BlockManager

end Iota.Consensus
