import Mathlib
import Iota.Consensus.BlockVerifier
import Iota.Consensus.DagState
import Iota.Lib.Ascending

/-! `BlockManager` (`consensus/core/src/block_manager.rs`): it holds back the
blocks whose ancestors have not all arrived, releases them when the last one
is accepted, and checks timestamps before handing blocks to the `DagState`.

The `BTreeMap`s are association lists, read through `lookup` and iterated in
key order with `ascending`; the `Vec` used as a stack in
`try_unsuspend_children_blocks` is a list whose head is the top.  The metrics
and `received_block_rounds` are not modelled.  The block verifier is a
parameter: the production `SignedBlockVerifier::check_ancestors`, or the
test verifier that accepts everything. -/

namespace Iota.Consensus

open Iota.Lib

structure SuspendedBlock where
  block : VerifiedBlock
  missingAncestors : Finset BlockRef
  deriving DecidableEq

inductive TryAcceptResult
  | accepted (block : VerifiedBlock)
  | suspended (ancestorsToFetch : Finset BlockRef)
  | processed
  | skipped
  deriving DecidableEq

structure BlockManager where
  dagState : DagState
  suspendedBlocks : AList (fun _ : BlockRef => SuspendedBlock)
  missingAncestors : AList (fun _ : BlockRef => Finset BlockRef)
  missingBlocks : Finset BlockRef
  deriving DecidableEq

namespace BlockManager

def new (dagState : DagState) : BlockManager := ⟨dagState, ∅, ∅, ∅⟩

/-- `missing_ancestors.entry(ancestor).or_default().insert(child)`. -/
def addMissingChild (m : AList (fun _ : BlockRef => Finset BlockRef)) (ancestor child : BlockRef) :
    AList (fun _ : BlockRef => Finset BlockRef) :=
  m.insert ancestor (insert child ((m.lookup ancestor).getD ∅))

/-! ### Accepting one block -/

/-- One missing ancestor of the block `blockRef`, in the loop of
`try_accept_one_block`: record the block as its child, and fetch it unless it
is already suspended here.  The accumulator holds the block's missing
ancestors and those to fetch. -/
def markMissingAncestor (blockRef : BlockRef) (acc : BlockManager × Finset BlockRef × Finset BlockRef)
    (ancestor : BlockRef) : BlockManager × Finset BlockRef × Finset BlockRef :=
  let (bm, missing, toFetch) := acc
  let bm := { bm with missingAncestors := addMissingChild bm.missingAncestors ancestor blockRef }
  if ancestor ∈ bm.suspendedBlocks then (bm, insert ancestor missing, toFetch)
  else ({ bm with missingBlocks := insert ancestor bm.missingBlocks },
    insert ancestor missing, insert ancestor toFetch)

def tryAcceptOneBlock (bm : BlockManager) (block : VerifiedBlock) : BlockManager × TryAcceptResult :=
  let ds := bm.dagState
  let blockRef := block.reference
  if blockRef ∈ bm.suspendedBlocks ∨ ds.containsBlock blockRef then (bm, .processed)
  else if ds.gcEnabled ∧ block.round ≤ ds.gcRound then (bm, .skipped)
  else
    -- without GC the GC round is genesis, and every ancestor is checked
    let ancestors :=
      if ds.gcEnabled then
        block.ancestors.filter (fun a => a.round = GENESIS_ROUND ∨ ds.gcRound < a.round)
      else block.ancestors
    let (bm, missing, toFetch) :=
      (ancestors.filter (fun a => !ds.containsBlock a)).foldl (markMissingAncestor blockRef) (bm, ∅, ∅)
    let bm := { bm with missingBlocks := bm.missingBlocks.erase blockRef }
    if missing.Nonempty then
      ({ bm with suspendedBlocks := bm.suspendedBlocks.insert blockRef ⟨block, missing⟩ },
        .suspended toFetch)
    else (bm, .accepted block)

/-- The ancestors a suspended block still misses lose the committed block as
a child. -/
def tryAcceptOneCommittedBlock (bm : BlockManager) (block : VerifiedBlock) :
    Except Panic (BlockManager × TryAcceptResult) :=
  let blockRef := block.reference
  if bm.dagState.containsBlock blockRef then .ok (bm, .processed)
  else do
    let bm := { bm with missingBlocks := bm.missingBlocks.erase blockRef }
    let bm :=
      match bm.suspendedBlocks.lookup blockRef with
      | some suspended =>
        { bm with
          suspendedBlocks := bm.suspendedBlocks.erase blockRef
          missingAncestors := (ascending suspended.missingAncestors).foldl
            (fun m ancestor => match m.lookup ancestor with
              | some refs => m.insert ancestor (refs.erase blockRef)
              | none => m) bm.missingAncestors }
      | none => bm
    let ds ← bm.dagState.acceptBlocks [block]
    .ok ({ bm with dagState := ds }, .accepted block)

/-! ### Unsuspending -/

/-- `try_unsuspend_block`: the suspended block no longer misses
`acceptedDependency`, and leaves the suspended map when it misses nothing. -/
def tryUnsuspendBlock (bm : BlockManager) (blockRef acceptedDependency : BlockRef) :
    Except Panic (BlockManager × Option VerifiedBlock) :=
  match bm.suspendedBlocks.lookup blockRef with
  | none => .error (.notInSuspendedMap blockRef)
  | some suspended =>
    if acceptedDependency ∉ suspended.missingAncestors then
      .error (.notInMissingDependencies blockRef acceptedDependency)
    else
      let missing := suspended.missingAncestors.erase acceptedDependency
      if missing = ∅ then
        .ok ({ bm with suspendedBlocks := bm.suspendedBlocks.erase blockRef }, some suspended.block)
      else
        .ok ({ bm with suspendedBlocks :=
          bm.suspendedBlocks.insert blockRef { suspended with missingAncestors := missing } }, none)

/-- One child `r` of the accepted `blockRef`; an unsuspended child is pushed
on the stack and recorded. -/
def unsuspendChild (blockRef : BlockRef) (acc : BlockManager × List BlockRef × List VerifiedBlock)
    (r : BlockRef) : Except Panic (BlockManager × List BlockRef × List VerifiedBlock) := do
  let (bm, toProcess, unsuspended) := acc
  let (bm, result) ← bm.tryUnsuspendBlock r blockRef
  match result with
  | some b => .ok (bm, b.reference :: toProcess, unsuspended ++ [b])
  | none => .ok (bm, toProcess, unsuspended)

/-- The `while let Some(block_ref) = to_process_blocks.pop()` loop.  Each round
pops one reference and pushes only blocks that leave the suspended map, so
one round more than there are suspended blocks empties the stack; that is the
fuel `tryUnsuspendChildrenBlocks` gives. -/
def tryUnsuspendChildrenBlocksLoop :
    ℕ → BlockManager → List BlockRef → List VerifiedBlock →
      Except Panic (BlockManager × List VerifiedBlock)
  | 0, bm, _, unsuspended => .ok (bm, unsuspended)
  | _ + 1, bm, [], unsuspended => .ok (bm, unsuspended)
  | n + 1, bm, blockRef :: toProcess, unsuspended =>
    match bm.missingAncestors.lookup blockRef with
    | none => tryUnsuspendChildrenBlocksLoop n bm toProcess unsuspended
    | some children => do
      let bm := { bm with missingAncestors := bm.missingAncestors.erase blockRef }
      let (bm, toProcess, unsuspended) ←
        (ascending children).foldlM (unsuspendChild blockRef) (bm, toProcess, unsuspended)
      tryUnsuspendChildrenBlocksLoop n bm toProcess unsuspended

def tryUnsuspendChildrenBlocks (bm : BlockManager) (acceptedBlock : BlockRef) :
    Except Panic (BlockManager × List VerifiedBlock) :=
  tryUnsuspendChildrenBlocksLoop (bm.suspendedBlocks.entries.length + 1) bm [acceptedBlock] []

/-! ### Finding blocks -/

/-- One reference of `try_find_blocks`: unless it is held or suspended it is
reported missing, and a newly missing one gets an entry of its own in
`missing_ancestors`, with no child yet. -/
def findBlock (acc : BlockManager × Finset BlockRef) (blockRef : BlockRef) : BlockManager × Finset BlockRef :=
  let (bm, missing) := acc
  if bm.dagState.containsBlock blockRef ∨ blockRef ∈ bm.suspendedBlocks then (bm, missing)
  else if blockRef ∈ bm.missingBlocks then (bm, insert blockRef missing)
  else
    ({ bm with
        missingBlocks := insert blockRef bm.missingBlocks
        missingAncestors :=
          if blockRef ∈ bm.missingAncestors then bm.missingAncestors else bm.missingAncestors.insert blockRef ∅ },
      insert blockRef missing)

/-- `try_find_blocks`: references at or below the GC round are not looked for. -/
def tryFindBlocks (bm : BlockManager) (blockRefs : List BlockRef) : BlockManager × Finset BlockRef :=
  ((blockRefs.filter fun r => bm.dagState.gcRound < r.round).insertionSort (fun a b => a.round ≤ b.round)).foldl
    findBlock (bm, ∅)

/-! ### Timestamp verification -/

section Verifier

variable (checkAncestors :
  VerifiedBlock → List (Option VerifiedBlock) → Bool → ℕ → Except Panic (Except ConsensusError Unit))

/-- One ancestor of the unsuspended `block`: found in the DAG state or among
the blocks accepted earlier in the same call (`some (some _)`), missing below
the GC round (`some none`), or rejected earlier in the same call (`none`, and
the block is rejected too). -/
def resolveAncestor (ds : DagState) (toAccept : AList (fun _ : BlockRef => VerifiedBlock))
    (toReject : Finset BlockRef) (block r : BlockRef) : Except Panic (Option (Option VerifiedBlock)) :=
  match ds.getBlock r with
  | some found => .ok (some (some found))
  | none =>
    match toAccept.lookup r with
    | some found => .ok (some (some found))
    | none =>
      if r ∈ toReject then .ok none
      else if ds.gcEnabled ∧ GENESIS_ROUND < r.round ∧ r.round ≤ ds.gcRound then .ok (some none)
      else .error (.unsuspendedMissingAncestor block r)

/-- The `'ancestor` loop, stopping at the first rejected ancestor. -/
def resolveAncestors (ds : DagState) (toAccept : AList (fun _ : BlockRef => VerifiedBlock))
    (toReject : Finset BlockRef) (block : BlockRef) :
    List BlockRef → Except Panic (Option (List (Option VerifiedBlock)))
  | [] => .ok (some [])
  | r :: rest => do
    match ← resolveAncestor ds toAccept toReject block r with
    | none => .ok none
    | some found => do
      match ← resolveAncestors ds toAccept toReject block rest with
      | none => .ok none
      | some founds => .ok (some (found :: founds))

/-- One block of the `'block` loop, with the blocks to accept and to reject
so far. -/
def verifyTimestampsStep (ds : DagState)
    (acc : AList (fun _ : BlockRef => VerifiedBlock) × Finset BlockRef) (b : VerifiedBlock) :
    Except Panic (AList (fun _ : BlockRef => VerifiedBlock) × Finset BlockRef) := do
  let (toAccept, toReject) := acc
  match ← resolveAncestors ds toAccept toReject b.reference b.ancestors with
  | none => .ok (toAccept, insert b.reference toReject)
  | some ancestorBlocks =>
    match ← checkAncestors b ancestorBlocks ds.gcEnabled ds.gcRound with
    | .error _ => .ok (toAccept, insert b.reference toReject)
    | .ok () => .ok (toAccept.insert b.reference b, toReject)

/-- The blocks to accept are handed to the DAG state, and returned, in
reference order. -/
def verifyBlockTimestampsAndAccept (bm : BlockManager) (unsuspendedBlocks : List VerifiedBlock) :
    Except Panic (BlockManager × List VerifiedBlock) := do
  let (toAccept, _) ← unsuspendedBlocks.foldlM (verifyTimestampsStep checkAncestors bm.dagState) (∅, ∅)
  let blocksToAccept := valuesAscending toAccept
  let ds ← bm.dagState.acceptBlocks blocksToAccept
  .ok ({ bm with dagState := ds }, blocksToAccept)

/-! ### The entry points -/

/-- One block of the loop of `try_accept_blocks_internal`, with the blocks
accepted and the ancestors to fetch so far.  A committed block is returned
as soon as it is accepted; any other one goes through the timestamp check
together with the children it unsuspends. -/
def acceptStep (committed : Bool) (acc : BlockManager × List VerifiedBlock × Finset BlockRef)
    (block : VerifiedBlock) : Except Panic (BlockManager × List VerifiedBlock × Finset BlockRef) := do
  let (bm, accepted, missing) := acc
  let outcome ← if committed then bm.tryAcceptOneCommittedBlock block else .ok (bm.tryAcceptOneBlock block)
  match outcome with
  | (bm, .accepted b) =>
    let (accepted, toVerify) := if committed then (accepted ++ [b], []) else (accepted, [b])
    let (bm, unsuspended) ← bm.tryUnsuspendChildrenBlocks block.reference
    let (bm, verified) ← bm.verifyBlockTimestampsAndAccept checkAncestors (toVerify ++ unsuspended)
    .ok (bm, accepted ++ verified, missing)
  | (bm, .suspended toFetch) =>
    if committed then .error (.committedSuspendedOrSkipped block.reference)
    else .ok (bm, accepted, missing ∪ toFetch)
  | (bm, .processed) => .ok (bm, accepted, missing)
  | (bm, .skipped) =>
    if committed then .error (.committedSuspendedOrSkipped block.reference)
    else .ok (bm, accepted, missing)

/-- Blocks are processed in round order; insertion sort is stable, as
`sort_by_key` is. -/
def tryAcceptBlocksInternal (bm : BlockManager) (blocks : List VerifiedBlock) (committed : Bool) :
    Except Panic (BlockManager × List VerifiedBlock × Finset BlockRef) :=
  (blocks.insertionSort (fun a b => a.round ≤ b.round)).foldlM (acceptStep checkAncestors committed)
    (bm, [], ∅)

def tryAcceptBlocks (bm : BlockManager) (blocks : List VerifiedBlock) :
    Except Panic (BlockManager × List VerifiedBlock × Finset BlockRef) :=
  bm.tryAcceptBlocksInternal checkAncestors blocks false

def tryAcceptCommittedBlocks (bm : BlockManager) (blocks : List VerifiedBlock) :
    Except Panic (BlockManager × List VerifiedBlock) :=
  if !bm.dagState.gcEnabled then .ok (bm, [])
  else do
    let (bm, accepted, missing) ← bm.tryAcceptBlocksInternal checkAncestors blocks true
    if missing ≠ ∅ then .error .committedMissingBlocks else .ok (bm, accepted)

/-- Successive calls of `try_accept_blocks`, one per batch, and every block
they accepted, in order. -/
def acceptBatches (bm : BlockManager) (batches : List (List VerifiedBlock)) :
    Except Panic (BlockManager × List VerifiedBlock) :=
  batches.foldlM (fun (bm, accepted) blocks => do
    let (bm, newlyAccepted, _) ← bm.tryAcceptBlocks checkAncestors blocks
    .ok (bm, accepted ++ newlyAccepted)) (bm, [])

/-- The loop of `try_unsuspend_blocks_for_latest_gc_round`: the least missing
ancestor at or below the GC round is given up on, and its children are
unsuspended and checked.  Each round removes that entry of
`missing_ancestors`, so as many rounds as there are entries suffice; that is
the fuel `tryUnsuspendBlocksForLatestGcRound` gives. -/
def unsuspendBelowGcRoundLoop (gcRound : ℕ) : ℕ → BlockManager → Except Panic BlockManager
  | 0, bm => .ok bm
  | n + 1, bm =>
    match (ascending bm.missingAncestors.keys.toFinset).head? with
    | none => .ok bm
    | some blockRef =>
      if gcRound < blockRef.round then .ok bm
      else if blockRef ∈ bm.suspendedBlocks then .error (.gcMissingAncestorSuspended blockRef)
      else do
        let bm := { bm with missingBlocks := bm.missingBlocks.erase blockRef }
        let (bm, unsuspended) ← bm.tryUnsuspendChildrenBlocks blockRef
        let (bm, _) ← bm.verifyBlockTimestampsAndAccept checkAncestors unsuspended
        unsuspendBelowGcRoundLoop gcRound n bm

def tryUnsuspendBlocksForLatestGcRound (bm : BlockManager) : Except Panic BlockManager :=
  if !bm.dagState.gcEnabled then .ok bm
  else unsuspendBelowGcRoundLoop checkAncestors bm.dagState.gcRound bm.missingAncestors.entries.length bm

/-! ### Only blocks with their ancestors reach the DAG state

Everything but the timestamp check leaves the DAG state alone, and the
timestamp check passes a block on only when every ancestor is held, accepted
with it, or passed by the GC; an ancestor found nowhere is a panic.  So the
DAG state stays causally closed over any run of `try_accept_blocks`. -/

theorem markMissingAncestor_dagState (r : BlockRef) (acc : BlockManager × Finset BlockRef × Finset BlockRef)
    (a : BlockRef) : (markMissingAncestor r acc a).1.dagState = acc.1.dagState := by
  obtain ⟨bm, missing, toFetch⟩ := acc
  simp only [markMissingAncestor]
  split_ifs <;> rfl

theorem foldl_markMissingAncestor_dagState (r : BlockRef) :
    ∀ (l : List BlockRef) (acc : BlockManager × Finset BlockRef × Finset BlockRef),
      (l.foldl (markMissingAncestor r) acc).1.dagState = acc.1.dagState
  | [], _ => rfl
  | a :: l, acc => by
    rw [List.foldl_cons, foldl_markMissingAncestor_dagState r l, markMissingAncestor_dagState]

@[simp] theorem tryAcceptOneBlock_dagState (bm : BlockManager) (b : VerifiedBlock) :
    (bm.tryAcceptOneBlock b).1.dagState = bm.dagState := by
  unfold tryAcceptOneBlock
  dsimp only
  split_ifs <;> simp only [foldl_markMissingAncestor_dagState]

theorem tryUnsuspendBlock_eq_ok {bm bm' : BlockManager} {r d : BlockRef} {o : Option VerifiedBlock} :
    bm.tryUnsuspendBlock r d = .ok (bm', o) ↔
      ∃ sb, bm.suspendedBlocks.lookup r = some sb ∧ d ∈ sb.missingAncestors ∧
        (sb.missingAncestors.erase d = ∅ ∧
            bm' = { bm with suspendedBlocks := bm.suspendedBlocks.erase r } ∧ o = some sb.block ∨
          sb.missingAncestors.erase d ≠ ∅ ∧
            bm' = { bm with suspendedBlocks := (bm.suspendedBlocks.insert r
              { sb with missingAncestors := sb.missingAncestors.erase d }) } ∧ o = none) := by
  unfold tryUnsuspendBlock
  split
  · simp_all
  · rename_i sb hsb
    simp only [hsb, Option.some.injEq, exists_eq_left']
    split_ifs <;> simp_all [eq_comm]

theorem tryUnsuspendBlock_dagState {bm bm' : BlockManager} {r d : BlockRef} {o : Option VerifiedBlock}
    (h : bm.tryUnsuspendBlock r d = .ok (bm', o)) : bm'.dagState = bm.dagState := by
  obtain ⟨sb, -, -, ⟨-, rfl, -⟩ | ⟨-, rfl, -⟩⟩ := Iff.mp tryUnsuspendBlock_eq_ok h <;> rfl

theorem unsuspendChild_dagState {r x : BlockRef} {acc acc' : BlockManager × List BlockRef × List VerifiedBlock}
    (h : unsuspendChild r acc x = .ok acc') : acc'.1.dagState = acc.1.dagState := by
  obtain ⟨bm, toProcess, unsuspended⟩ := acc
  simp only [unsuspendChild, except_bind_eq_ok] at h
  obtain ⟨⟨bm₁, o⟩, h₁, h₂⟩ := h
  have := tryUnsuspendBlock_dagState h₁
  cases o <;> simp only [Except.ok.injEq] at h₂ <;> subst h₂ <;> exact this

theorem tryUnsuspendChildrenBlocksLoop_dagState :
    ∀ {n : ℕ} {bm bm' : BlockManager} {toProcess : List BlockRef} {unsuspended out : List VerifiedBlock},
      tryUnsuspendChildrenBlocksLoop n bm toProcess unsuspended = .ok (bm', out) →
        bm'.dagState = bm.dagState
  | 0, _, _, _, _, _, h => by cases h; rfl
  | _ + 1, _, _, [], _, _, h => by cases h; rfl
  | n + 1, bm, bm', r :: toProcess, unsuspended, out, h => by
    unfold tryUnsuspendChildrenBlocksLoop at h
    split at h
    · exact tryUnsuspendChildrenBlocksLoop_dagState h
    · rw [except_bind_eq_ok] at h
      obtain ⟨⟨bm₁, toProcess₁, unsuspended₁⟩, hfold, hloop⟩ := h
      have hbm₁ : bm₁.dagState = bm.dagState :=
        foldlM_except_induction (P := fun acc => acc.1.dagState = bm.dagState) rfl
          (fun _ _ _ _ hacc hstep => (unsuspendChild_dagState hstep).trans hacc) hfold
      exact (tryUnsuspendChildrenBlocksLoop_dagState hloop).trans hbm₁

theorem tryUnsuspendChildrenBlocks_dagState {bm bm' : BlockManager} {r : BlockRef} {out : List VerifiedBlock}
    (h : bm.tryUnsuspendChildrenBlocks r = .ok (bm', out)) : bm'.dagState = bm.dagState :=
  tryUnsuspendChildrenBlocksLoop_dagState h

theorem resolved_of_resolveAncestor {ds : DagState} {toAccept : AList (fun _ : BlockRef => VerifiedBlock)}
    {toReject : Finset BlockRef} {block r : BlockRef} {o : Option VerifiedBlock}
    (h : resolveAncestor ds toAccept toReject block r = .ok (some o)) :
    ds.containsBlock r ∨ r ∈ toAccept ∨ ds.gcCollects r := by
  unfold resolveAncestor at h
  split at h
  · exact .inl (ds.containsBlock_of_getBlock ‹_›)
  · split at h
    · rename_i found hfound
      exact .inr (.inl (AList.lookup_isSome.mp (by simp [hfound])))
    · split_ifs at h with hreject hgc
      · simp at h
      · exact .inr (.inr hgc)

theorem resolved_of_resolveAncestors {ds : DagState} {toAccept : AList (fun _ : BlockRef => VerifiedBlock)}
    {toReject : Finset BlockRef} {block : BlockRef} :
    ∀ {l : List BlockRef} {founds : List (Option VerifiedBlock)},
      resolveAncestors ds toAccept toReject block l = .ok (some founds) →
        ∀ r ∈ l, ds.containsBlock r ∨ r ∈ toAccept ∨ ds.gcCollects r
  | [], _, _ => by simp
  | r :: rest, founds, h => by
    simp only [resolveAncestors, except_bind_eq_ok] at h
    obtain ⟨o, ho, h⟩ := h
    cases o with
    | none => simp at h
    | some found =>
      simp only [except_bind_eq_ok] at h
      obtain ⟨o', ho', h⟩ := h
      cases o' with
      | none => simp at h
      | some founds' =>
        intro x hx
        rcases List.mem_cons.mp hx with rfl | hx
        · exact resolved_of_resolveAncestor ho
        · exact resolved_of_resolveAncestors ho' x hx

/-- The blocks to accept in the `'block` loop are stored under their own
references, and each of their ancestors is held, also to be accepted, or
passed by the GC. -/
def AncestorsResolved (ds : DagState) (toAccept : AList (fun _ : BlockRef => VerifiedBlock)) : Prop :=
  ∀ k b, toAccept.lookup k = some b →
    b.reference = k ∧ ∀ r ∈ b.ancestors, ds.containsBlock r ∨ r ∈ toAccept ∨ ds.gcCollects r

theorem ancestorsResolved_insert {ds : DagState} {toAccept : AList (fun _ : BlockRef => VerifiedBlock)}
    {b : VerifiedBlock} (hinv : AncestorsResolved ds toAccept)
    (hb : ∀ r ∈ b.ancestors, ds.containsBlock r ∨ r ∈ toAccept ∨ ds.gcCollects r) :
    AncestorsResolved ds (toAccept.insert b.reference b) := by
  have grow : ∀ {r}, ds.containsBlock r ∨ r ∈ toAccept ∨ ds.gcCollects r →
      ds.containsBlock r ∨ r ∈ toAccept.insert b.reference b ∨ ds.gcCollects r :=
    fun hr => hr.imp_right (Or.imp_left fun hm => (AList.mem_insert _).mpr (.inr hm))
  intro k x hx
  by_cases hk : k = b.reference
  · subst hk
    rw [AList.lookup_insert, Option.some.injEq] at hx
    subst hx
    exact ⟨rfl, fun r hr => grow (hb r hr)⟩
  · rw [AList.lookup_insert_ne hk] at hx
    obtain ⟨hxk, hxa⟩ := hinv k x hx
    exact ⟨hxk, fun r hr => grow (hxa r hr)⟩

theorem ancestorsResolved_of_verifyTimestampsStep {ds : DagState}
    {acc acc' : AList (fun _ : BlockRef => VerifiedBlock) × Finset BlockRef} {b : VerifiedBlock}
    (hinv : AncestorsResolved ds acc.1) (h : verifyTimestampsStep checkAncestors ds acc b = .ok acc') :
    AncestorsResolved ds acc'.1 := by
  obtain ⟨toAccept, toReject⟩ := acc
  simp only [verifyTimestampsStep, except_bind_eq_ok] at h
  obtain ⟨resolved, hresolved, h⟩ := h
  cases resolved with
  | none => simp only [Except.ok.injEq] at h; subst h; exact hinv
  | some ancestorBlocks =>
    simp only [except_bind_eq_ok] at h
    obtain ⟨verdict, -, h⟩ := h
    cases verdict with
    | error => simp only [Except.ok.injEq] at h; subst h; exact hinv
    | ok =>
      simp only [Except.ok.injEq] at h
      subst h
      exact ancestorsResolved_insert hinv (resolved_of_resolveAncestors hresolved)

theorem causallyClosed_of_verifyBlockTimestampsAndAccept {bm bm' : BlockManager}
    {unsuspended out : List VerifiedBlock} (hc : bm.dagState.CausallyClosed)
    (h : bm.verifyBlockTimestampsAndAccept checkAncestors unsuspended = .ok (bm', out)) :
    bm'.dagState.CausallyClosed := by
  simp only [verifyBlockTimestampsAndAccept, except_bind_eq_ok] at h
  obtain ⟨⟨toAccept, toReject⟩, hfold, ds, hds, h⟩ := h
  simp only [Except.ok.injEq, Prod.mk.injEq] at h
  obtain ⟨rfl, -⟩ := h
  have hinv : AncestorsResolved bm.dagState toAccept :=
    foldlM_except_induction (P := fun acc => AncestorsResolved bm.dagState acc.1)
      (fun k b hk => by simp [AList.lookup_empty] at hk)
      (fun _ _ _ _ hacc hstep => ancestorsResolved_of_verifyTimestampsStep checkAncestors hacc hstep) hfold
  refine DagState.causallyClosed_of_acceptBlocks hc ?_ hds
  intro b hb r hr
  obtain ⟨k, hk⟩ := mem_valuesAscending.mp hb
  rcases (hinv k b hk).2 r hr with hheld | hmem | hgc
  · exact .inl hheld
  · obtain ⟨a, ha⟩ := Option.isSome_iff_exists.mp (AList.lookup_isSome.mpr hmem)
    exact .inr (.inl ⟨a, mem_valuesAscending.mpr ⟨r, ha⟩, (hinv r a ha).1⟩)
  · exact .inr (.inr hgc)

theorem causallyClosed_of_acceptStep {acc acc' : BlockManager × List VerifiedBlock × Finset BlockRef}
    {block : VerifiedBlock} (hc : acc.1.dagState.CausallyClosed)
    (h : acceptStep checkAncestors false acc block = .ok acc') : acc'.1.dagState.CausallyClosed := by
  obtain ⟨bm, accepted, missing⟩ := acc
  simp only [acceptStep, Bool.false_eq_true, ↓reduceIte, except_bind_eq_ok] at h
  obtain ⟨⟨bm₁, result⟩, hres, h⟩ := h
  have hds : bm₁.dagState = bm.dagState := by
    rw [← tryAcceptOneBlock_dagState bm block, Except.ok.inj hres]
  cases result with
  | accepted b =>
    simp only [except_bind_eq_ok] at h
    obtain ⟨⟨bm₂, unsuspended⟩, hunsuspend, ⟨bm₃, verified⟩, hverify, h⟩ := h
    simp only [Except.ok.injEq] at h
    subst h
    have hc₂ : bm₂.dagState.CausallyClosed := by
      rw [tryUnsuspendChildrenBlocks_dagState hunsuspend, hds]
      exact hc
    exact causallyClosed_of_verifyBlockTimestampsAndAccept checkAncestors hc₂ hverify
  | suspended toFetch => simp only [Except.ok.injEq] at h; subst h; rw [hds]; exact hc
  | processed => simp only [Except.ok.injEq] at h; subst h; rw [hds]; exact hc
  | skipped => simp only [Except.ok.injEq] at h; subst h; rw [hds]; exact hc

theorem causallyClosed_of_tryAcceptBlocks {bm bm' : BlockManager} {blocks accepted : List VerifiedBlock}
    {missing : Finset BlockRef} (hc : bm.dagState.CausallyClosed)
    (h : bm.tryAcceptBlocks checkAncestors blocks = .ok (bm', accepted, missing)) :
    bm'.dagState.CausallyClosed :=
  foldlM_except_induction (P := fun acc => acc.1.dagState.CausallyClosed) hc
    (fun _ _ _ _ hacc hstep => causallyClosed_of_acceptStep checkAncestors hacc hstep) h

/-- Over any run of `try_accept_blocks` calls that does not panic, whatever
the verifier rejects, every block in the DAG state has its ancestors there
(or passed by the GC): a block that depends on a rejected block is never
accepted. -/
theorem causallyClosed_of_acceptBatches {bm bm' : BlockManager} {batches : List (List VerifiedBlock)}
    {accepted : List VerifiedBlock} (hc : bm.dagState.CausallyClosed)
    (h : bm.acceptBatches checkAncestors batches = .ok (bm', accepted)) :
    bm'.dagState.CausallyClosed := by
  refine foldlM_except_induction (P := fun acc => acc.1.dagState.CausallyClosed) hc ?_ h
  rintro ⟨bm₁, accepted₁⟩ blocks ⟨bm₂, accepted₂⟩ - hc₁ hstep
  simp only [except_bind_eq_ok] at hstep
  obtain ⟨⟨bm₃, newlyAccepted, missing⟩, hcall, hstep⟩ := hstep
  simp only [Except.ok.injEq, Prod.mk.injEq] at hstep
  obtain ⟨rfl, -⟩ := hstep
  exact causallyClosed_of_tryAcceptBlocks checkAncestors hc₁ hcall

end Verifier

/-! ### A block rejected for its timestamp traps its child

`C` waits for `P` and `Q`.  `P` arrives, passes `try_accept_one_block` and
takes itself off `C`'s missing ancestors, and only then fails
`check_ancestors`: its timestamp is below that of its ancestor `A0`.  The
rejected set lives for that one call, so when `Q` arrives in a later call and
releases `C`, `P` is found nowhere and, with GC disabled, the call panics.
Every block here passed `SignedBlockVerifier::verify`. -/

/-- The test context: four authorities of stake one, epoch zero, no
transaction limits. -/
def trapVerifier : SignedBlockVerifier where
  committee := ⟨[⟨1⟩, ⟨1⟩, ⟨1⟩, ⟨1⟩], Committee.four_equal_ne_nil, Committee.four_equal_total_ne_zero⟩
  epoch := 0
  genesis := {⟨0, 0, 0⟩, ⟨0, 1, 0⟩, ⟨0, 2, 0⟩, ⟨0, 3, 0⟩}
  maxTransactionSizeBytes := 0
  maxNumTransactionsInBlock := 0
  maxTransactionsInBlockBytes := 0
  verifySignature _ := .ok ()
  verifyBatch _ := true

def trapBlock (b : SignedBlock) (h : trapVerifier.verify b = .ok ()) : VerifiedBlock :=
  .newVerified b 0 (SignedBlockVerifier.ancestors_round_lt_of_verify h)

def trapRoundOne (i timestampMs : ℕ) : SignedBlock :=
  ⟨0, 1, i, timestampMs, [⟨0, i, 0⟩, ⟨0, (i + 1) % 4, 0⟩, ⟨0, (i + 2) % 4, 0⟩], []⟩

def trapA0 : VerifiedBlock := trapBlock (trapRoundOne 0 100) (by decide)
def trapA1 : VerifiedBlock := trapBlock (trapRoundOne 1 10) (by decide)
def trapA2 : VerifiedBlock := trapBlock (trapRoundOne 2 10) (by decide)
def trapA3 : VerifiedBlock := trapBlock (trapRoundOne 3 10) (by decide)
def trapR : VerifiedBlock := trapBlock ⟨0, 2, 3, 200, [⟨1, 3, 0⟩, ⟨1, 0, 0⟩, ⟨1, 1, 0⟩], []⟩ (by decide)
def trapP : VerifiedBlock := trapBlock ⟨0, 2, 1, 50, [⟨1, 1, 0⟩, ⟨1, 0, 0⟩, ⟨1, 2, 0⟩], []⟩ (by decide)
def trapQ : VerifiedBlock := trapBlock ⟨0, 2, 2, 200, [⟨1, 2, 0⟩, ⟨1, 1, 0⟩, ⟨1, 3, 0⟩], []⟩ (by decide)
def trapC : VerifiedBlock := trapBlock ⟨0, 3, 3, 300, [⟨2, 3, 0⟩, ⟨2, 1, 0⟩, ⟨2, 2, 0⟩], []⟩ (by decide)

/-- GC disabled, nothing committed, the clock past every timestamp. -/
def trapDagState : DagState where
  genesis := (List.range 4).map fun i => ⟨0, i, 0, 0, [], VerifiedBlock.genesis_ancestors_round_lt⟩
  blocks := []
  gcDepth := 0
  lastCommitRound := 0
  ownIndex := 0
  nowMs := 1000

/-- Up to `R` every batch is accepted, and the DAG state stays closed. -/
theorem causallyClosed_of_acceptBatches_trap :
    ∃ bm' accepted, (new trapDagState).acceptBatches SignedBlockVerifier.checkAncestors
        [[trapA0, trapA1, trapA2, trapA3], [trapR]] = .ok (bm', accepted) ∧ bm'.dagState.CausallyClosed := by
  have hok : ((new trapDagState).acceptBatches SignedBlockVerifier.checkAncestors
      [[trapA0, trapA1, trapA2, trapA3], [trapR]]).toBool = true := by decide
  rcases h : (new trapDagState).acceptBatches SignedBlockVerifier.checkAncestors
      [[trapA0, trapA1, trapA2, trapA3], [trapR]] with p | ⟨bm', accepted⟩
  · rw [h] at hok
    contradiction
  · refine ⟨bm', accepted, rfl, causallyClosed_of_acceptBatches SignedBlockVerifier.checkAncestors ?_ h⟩
    simp [DagState.CausallyClosed, new, trapDagState]

theorem acceptBatches_rejected_parent_panics :
    (new trapDagState).acceptBatches SignedBlockVerifier.checkAncestors
        [[trapA0, trapA1, trapA2, trapA3], [trapR], [trapC], [trapP], [trapQ]] =
      .error (.unsuspendedMissingAncestor trapC.reference trapP.reference) := by
  decide

end BlockManager

end Iota.Consensus
