import Iota.Consensus.BlockManager

/-! The representation invariant of `BlockManager`.  `missing_ancestors` is a
two-way index of what the suspended blocks still miss, no missing ancestor is
held, and `missing_blocks` lists only indexed references that are neither
suspended nor held.  Every entry point keeps it; under it the `expect` and
`assert!` of `try_unsuspend_block` cannot fire, and the unsuspension loop
never runs out of rounds.

The heart is `try_unsuspend_children_blocks`: while it runs, the blocks it has
released (and the one it started from) are accepted but not yet held, and the
index is kept up to the children of the reference being processed. -/

namespace Iota.Consensus

open Iota.Lib

namespace BlockManager

/-- `c` is suspended and still misses `m`. -/
def Waits (bm : BlockManager) (c m : BlockRef) : Prop :=
  ∃ s, bm.suspendedBlocks.lookup c = some s ∧ m ∈ s.missingAncestors

/-- `c` is a child of `m` in `missing_ancestors`. -/
def Listed (bm : BlockManager) (m c : BlockRef) : Prop :=
  ∃ cs, bm.missingAncestors.lookup m = some cs ∧ c ∈ cs

/-- The shape of the maps, with the index kept up to the pairs `pending`: a
suspended block waits on `m` exactly when it is listed under `m` or the pair
is pending. -/
structure IndexedUpTo (pending : BlockRef → BlockRef → Prop) (bm : BlockManager) : Prop where
  suspended_reference : ∀ c s, bm.suspendedBlocks.lookup c = some s → s.block.reference = c
  suspended_missing : ∀ c s, bm.suspendedBlocks.lookup c = some s →
    s.missingAncestors.Nonempty ∧ ∀ m ∈ s.missingAncestors, m ∈ s.block.ancestors
  waits_iff : ∀ c m, bm.Waits c m ↔ bm.Listed m c ∨ pending m c
  missingBlocks_listed : ∀ m ∈ bm.missingBlocks, m ∈ bm.missingAncestors
  missingBlocks_not_suspended : ∀ m ∈ bm.missingBlocks, m ∉ bm.suspendedBlocks
  missingBlocks_not_held : ∀ m ∈ bm.missingBlocks, bm.dagState.containsBlock m = false

/-- The representation invariant: `missing_ancestors` indexes exactly what the
suspended blocks miss, and nothing they miss is held. -/
structure Indexed (bm : BlockManager) : Prop extends bm.IndexedUpTo fun _ _ => False where
  waits_not_held : ∀ c m, bm.Waits c m → bm.dagState.containsBlock m = false

theorem Indexed.waits_iff_listed {bm : BlockManager} (h : bm.Indexed) {c m : BlockRef} :
    bm.Waits c m ↔ bm.Listed m c := by
  rw [h.waits_iff, or_false]

theorem indexed_new (dagState : DagState) : (new dagState).Indexed where
  suspended_reference := by simp [new, AList.lookup_empty]
  suspended_missing := by simp [new, AList.lookup_empty]
  waits_iff := by simp [Waits, Listed, new, AList.lookup_empty]
  waits_not_held := by simp [Waits, new, AList.lookup_empty]
  missingBlocks_listed := by simp [new]
  missingBlocks_not_suspended := by simp [new]
  missingBlocks_not_held := by simp [new]

/-! ### Sizes of association lists -/

section Length

variable {β : Type} {s : AList (fun _ : BlockRef => β)} {a : BlockRef}

theorem length_entries_eq_keys (s : AList (fun _ : BlockRef => β)) : s.entries.length = s.keys.length := by
  simp [AList.keys, List.keys]

theorem length_entries_erase (h : a ∈ s) : (s.erase a).entries.length + 1 = s.entries.length := by
  rw [length_entries_eq_keys, length_entries_eq_keys, AList.keys_erase,
    List.length_erase_of_mem (AList.mem_keys.mp h)]
  have := List.length_pos_of_mem (AList.mem_keys.mp h)
  omega

theorem length_entries_insert (h : a ∈ s) (b : β) : (s.insert a b).entries.length = s.entries.length := by
  rw [length_entries_eq_keys, length_entries_eq_keys, AList.keys_insert, List.length_cons,
    List.length_erase_of_mem (AList.mem_keys.mp h)]
  have := List.length_pos_of_mem (AList.mem_keys.mp h)
  omega

end Length

/-! ### Releasing one child -/

section TryUnsuspendBlock

variable {bm bm' : BlockManager} {c r : BlockRef} {o : Option VerifiedBlock}

theorem tryUnsuspendBlock_shape (h : bm.tryUnsuspendBlock c r = .ok (bm', o)) :
    bm' = { bm with suspendedBlocks := bm'.suspendedBlocks } := by
  obtain ⟨sb, -, -, ⟨-, rfl, -⟩ | ⟨-, rfl, -⟩⟩ := tryUnsuspendBlock_eq_ok.mp h <;> rfl

theorem lookup_of_tryUnsuspendBlock_ne (h : bm.tryUnsuspendBlock c r = .ok (bm', o)) {c' : BlockRef}
    (hc : c' ≠ c) : bm'.suspendedBlocks.lookup c' = bm.suspendedBlocks.lookup c' := by
  obtain ⟨sb, -, -, ⟨-, rfl, -⟩ | ⟨-, rfl, -⟩⟩ := tryUnsuspendBlock_eq_ok.mp h
  · exact AList.lookup_erase_ne hc
  · exact AList.lookup_insert_ne hc

theorem waits_of_tryUnsuspendBlock (h : bm.tryUnsuspendBlock c r = .ok (bm', o)) (c' m : BlockRef) :
    bm'.Waits c' m ↔ bm.Waits c' m ∧ ¬(c' = c ∧ m = r) := by
  by_cases hc : c' = c
  · subst hc
    obtain ⟨sb, hsb, -, ⟨hempty, rfl, -⟩ | ⟨-, rfl, -⟩⟩ := tryUnsuspendBlock_eq_ok.mp h
    · -- the last missing ancestor was `r`: the block leaves the suspended map
      simp only [Waits, AList.lookup_erase, reduceCtorEq, false_and, exists_false, hsb, Option.some.injEq,
        exists_eq_left', true_and, false_iff, not_and, not_not]
      intro hm
      by_contra hne
      simpa [hempty] using Finset.mem_erase.mpr ⟨hne, hm⟩
    · simp [Waits, AList.lookup_insert, hsb, Finset.mem_erase, and_comm]
  · simp only [Waits, lookup_of_tryUnsuspendBlock_ne h hc, hc, false_and, not_false_eq_true, and_true]

theorem tryUnsuspendBlock_released (h : bm.tryUnsuspendBlock c r = .ok (bm', o)) :
    ∃ s, bm.suspendedBlocks.lookup c = some s ∧
      (o = some s.block ∧ s.missingAncestors = {r} ∧ bm'.suspendedBlocks.lookup c = none ∨
        o = none ∧ bm'.suspendedBlocks.lookup c = some { s with missingAncestors := s.missingAncestors.erase r } ∧
          (s.missingAncestors.erase r).Nonempty) := by
  obtain ⟨sb, hsb, hr, ⟨hempty, rfl, rfl⟩ | ⟨hne, rfl, rfl⟩⟩ := tryUnsuspendBlock_eq_ok.mp h
  · refine ⟨sb, hsb, .inl ⟨rfl, ?_, AList.lookup_erase _ _⟩⟩
    rw [← Finset.insert_erase hr, hempty]
    rfl
  · exact ⟨sb, hsb, .inr ⟨rfl, AList.lookup_insert _, Finset.nonempty_iff_ne_empty.mpr hne⟩⟩

theorem tryUnsuspendBlock_of_waits (hw : bm.Waits c r) :
    ∃ bm' o, bm.tryUnsuspendBlock c r = .ok (bm', o) := by
  obtain ⟨s, hs, hr⟩ := hw
  unfold tryUnsuspendBlock
  rw [hs]
  dsimp only
  rw [if_neg (not_not.mpr hr)]
  split_ifs <;> exact ⟨_, _, rfl⟩

theorem mem_of_tryUnsuspendBlock (h : bm.tryUnsuspendBlock c r = .ok (bm', o)) {c' : BlockRef}
    (hc' : c' ∈ bm'.suspendedBlocks) : c' ∈ bm.suspendedBlocks := by
  by_cases hc : c' = c
  · subst hc
    obtain ⟨s, hs, -⟩ := tryUnsuspendBlock_released h
    exact AList.lookup_isSome.mp (by simp [hs])
  · rw [← AList.lookup_isSome, lookup_of_tryUnsuspendBlock_ne h hc] at hc'
    exact AList.lookup_isSome.mp hc'

theorem lookup_of_tryUnsuspendBlock (h : bm.tryUnsuspendBlock c r = .ok (bm', o)) {c' : BlockRef}
    {s' : SuspendedBlock} (hs' : bm'.suspendedBlocks.lookup c' = some s') :
    ∃ s, bm.suspendedBlocks.lookup c' = some s ∧ s'.block = s.block ∧
      s'.missingAncestors ⊆ s.missingAncestors ∧ (∀ m ∈ s.missingAncestors, m = r ∨ m ∈ s'.missingAncestors) ∧
      (c' = c → s'.missingAncestors.Nonempty) := by
  by_cases hc : c' = c
  · subst hc
    obtain ⟨s, hs, ⟨-, -, hnone⟩ | ⟨-, hsome, hne⟩⟩ := tryUnsuspendBlock_released h
    · simp [hnone] at hs'
    · rw [hsome, Option.some.injEq] at hs'
      subst hs'
      refine ⟨s, hs, rfl, Finset.erase_subset _ _, fun m hm => ?_, fun _ => hne⟩
      by_cases hmr : m = r
      · exact .inl hmr
      · exact .inr (Finset.mem_erase.mpr ⟨hmr, hm⟩)
  · rw [lookup_of_tryUnsuspendBlock_ne h hc] at hs'
    exact ⟨s', hs', rfl, subset_rfl, fun m hm => .inr hm, fun hc' => absurd hc' hc⟩

theorem mem_of_tryUnsuspendBlock_iff (h : bm.tryUnsuspendBlock c r = .ok (bm', o)) (c' : BlockRef) :
    c' ∈ bm.suspendedBlocks ↔ c' ∈ bm'.suspendedBlocks ∨ c' = c ∧ o.isSome := by
  by_cases hc : c' = c
  · subst hc
    obtain ⟨s, hs, ⟨rfl, -, hnone⟩ | ⟨rfl, hsome, -⟩⟩ := tryUnsuspendBlock_released h
    · simp [← AList.lookup_isSome, hs, hnone]
    · simp [← AList.lookup_isSome, hs, hsome]
  · simp only [← AList.lookup_isSome, lookup_of_tryUnsuspendBlock_ne h hc, hc, false_and, or_false]

theorem length_of_tryUnsuspendBlock (h : bm.tryUnsuspendBlock c r = .ok (bm', o)) :
    bm'.suspendedBlocks.entries.length + (if o.isSome then 1 else 0) = bm.suspendedBlocks.entries.length := by
  obtain ⟨sb, hsb, -, ⟨-, rfl, rfl⟩ | ⟨-, rfl, rfl⟩⟩ := tryUnsuspendBlock_eq_ok.mp h
  · rw [Option.isSome_some, if_pos rfl]
    exact length_entries_erase (AList.lookup_isSome.mp (by simp [hsb]))
  · rw [Option.isSome_none, if_neg Bool.false_ne_true, Nat.add_zero]
    exact length_entries_insert (AList.lookup_isSome.mp (by simp [hsb])) _

theorem IndexedUpTo.tryUnsuspendBlock {pending pending' : BlockRef → BlockRef → Prop}
    (hi : bm.IndexedUpTo pending) (h : bm.tryUnsuspendBlock c r = .ok (bm', o))
    (hpending : ∀ c' m, (bm.Listed m c' ∨ pending m c') ∧ ¬(c' = c ∧ m = r) ↔ bm.Listed m c' ∨ pending' m c') :
    bm'.IndexedUpTo pending' := by
  have hshape := tryUnsuspendBlock_shape h
  have hwaits := waits_of_tryUnsuspendBlock h
  constructor
  · intro c' s' hs'
    obtain ⟨s, hs, hblock, -, -, -⟩ := lookup_of_tryUnsuspendBlock h hs'
    rw [hblock]
    exact hi.suspended_reference c' s hs
  · intro c' s' hs'
    obtain ⟨s, hs, hblock, hsub, -, hne⟩ := lookup_of_tryUnsuspendBlock h hs'
    obtain ⟨hnonempty, hanc⟩ := hi.suspended_missing c' s hs
    refine ⟨?_, fun m hm => hblock ▸ hanc m (hsub hm)⟩
    by_cases hc : c' = c
    · exact hne hc
    · rw [lookup_of_tryUnsuspendBlock_ne h hc, hs, Option.some.injEq] at hs'
      exact hs' ▸ hnonempty
  · intro c' m
    rw [hwaits, hi.waits_iff, hshape]
    exact hpending c' m
  · rw [hshape]
    exact hi.missingBlocks_listed
  · intro m hm hsus
    rw [hshape] at hm
    exact hi.missingBlocks_not_suspended m hm (mem_of_tryUnsuspendBlock h hsus)
  · rw [hshape]
    exact hi.missingBlocks_not_held

end TryUnsuspendBlock

/-! ### The unsuspension loop -/

/-- What `try_unsuspend_children_blocks` started from `start` has released:
that reference, and every block it has unsuspended. -/
def Released (start : BlockRef) (unsuspended : List VerifiedBlock) (m : BlockRef) : Prop :=
  m = start ∨ ∃ b ∈ unsuspended, b.reference = m

theorem released_append {start m : BlockRef} {unsuspended : List VerifiedBlock} {b : VerifiedBlock} :
    Released start (unsuspended ++ [b]) m ↔ Released start unsuspended m ∨ b.reference = m := by
  simp only [Released, List.mem_append, List.mem_singleton, or_and_right, exists_or, exists_eq_left, or_assoc]

/-- Each unsuspended block's ancestors satisfy `Q`, are the start, or were
unsuspended before it. -/
def Ordered (Q : BlockRef → Prop) (start : BlockRef) (unsuspended : List VerifiedBlock) : Prop :=
  ∀ i (hi : i < unsuspended.length), ∀ a ∈ unsuspended[i].ancestors,
    Q a ∨ a = start ∨ ∃ b ∈ unsuspended.take i, b.reference = a

theorem Ordered.append {Q : BlockRef → Prop} {start : BlockRef} {unsuspended : List VerifiedBlock}
    {x : VerifiedBlock} (h : Ordered Q start unsuspended)
    (hx : ∀ a ∈ x.ancestors, Q a ∨ Released start unsuspended a) : Ordered Q start (unsuspended ++ [x]) := by
  intro i hi a ha
  rw [List.length_append, List.length_singleton] at hi
  rcases Nat.lt_succ_iff_lt_or_eq.mp hi with hi | rfl
  · rw [List.getElem_append_left hi] at ha
    rw [List.take_append_of_le_length hi.le]
    exact h i hi a ha
  · rw [List.getElem_append_right (Nat.le_refl _)] at ha
    simp only [Nat.sub_self, List.getElem_singleton] at ha
    rw [List.take_left' rfl]
    rcases hx a ha with hq | hr
    · exact .inl hq
    · exact .inr hr

/-- The children of `r` not yet released, as the pending pairs of the index. -/
def ChildrenOf (r : BlockRef) (rest : List BlockRef) (m c : BlockRef) : Prop := m = r ∧ c ∈ rest

/-- The state of `try_unsuspend_children_blocks` started from `start` in a
state whose suspended blocks were `suspended₀`: the references still to
process are `toProcess`, the blocks released so far `unsuspended`, and `fuel`
rounds are left.  `Q` is what the caller knows of the ancestors that are
neither released nor missing: held, for one. -/
structure Cascade (Q : BlockRef → Prop) (suspended₀ : AList (fun _ : BlockRef => SuspendedBlock))
    (start : BlockRef) (pending : BlockRef → BlockRef → Prop) (bm : BlockManager) (toProcess : List BlockRef)
    (unsuspended : List VerifiedBlock) (fuel : ℕ) : Prop where
  indexed : bm.IndexedUpTo pending
  /-- What a suspended block waits on is not held, unless it was released. -/
  waits_unheld : ∀ c m, bm.Waits c m → bm.dagState.containsBlock m = false ∨ Released start unsuspended m
  toProcess_released : ∀ m ∈ toProcess, Released start unsuspended m
  /-- A released reference with children waits on the stack. -/
  released_listed : ∀ m, Released start unsuspended m → m ∈ bm.missingAncestors → m ∈ toProcess
  released_not_missing : ∀ m, Released start unsuspended m → m ∉ bm.missingBlocks
  released_not_suspended : ∀ m, Released start unsuspended m → m ∉ bm.suspendedBlocks
  /-- Each round pops a reference and pushes only blocks that leave the suspended map. -/
  fuel_le : toProcess.length + bm.suspendedBlocks.entries.length ≤ fuel
  covered : ∀ c s, bm.suspendedBlocks.lookup c = some s → ∀ a ∈ s.block.ancestors,
    Q a ∨ Released start unsuspended a ∨ a ∈ s.missingAncestors
  ordered : Ordered Q start unsuspended
  suspended_or_unsuspended : ∀ c, c ∈ suspended₀ ↔ c ∈ bm.suspendedBlocks ∨ ∃ b ∈ unsuspended, b.reference = c
  suspended_block : ∀ c s, bm.suspendedBlocks.lookup c = some s → ∃ s₀, suspended₀.lookup c = some s₀ ∧ s₀.block = s.block
  unsuspended_block : ∀ b ∈ unsuspended, ∃ s₀, suspended₀.lookup b.reference = some s₀ ∧ s₀.block = b
  unsuspended_nodup : (unsuspended.map VerifiedBlock.reference).Nodup
  start_not_unsuspended : ∀ b ∈ unsuspended, b.reference ≠ start

section Child

variable {Q : BlockRef → Prop} {suspended₀ : AList (fun _ : BlockRef => SuspendedBlock)} {start r c : BlockRef}
  {rest toProcess : List BlockRef} {unsuspended : List VerifiedBlock} {fuel : ℕ} {bm : BlockManager}

theorem unsuspendChild_cascade
    (hc : Cascade Q suspended₀ start (ChildrenOf r (c :: rest)) bm toProcess unsuspended fuel)
    (hr : Released start unsuspended r) (hkey : r ∉ bm.missingAncestors) (hnodup : (c :: rest).Nodup) :
    ∃ acc, unsuspendChild r (bm, toProcess, unsuspended) c = .ok acc ∧
      Cascade Q suspended₀ start (ChildrenOf r rest) acc.1 acc.2.1 acc.2.2 fuel ∧
      acc.1 = { bm with suspendedBlocks := acc.1.suspendedBlocks } ∧ ∃ extra, acc.2.2 = unsuspended ++ extra := by
  have hwait : bm.Waits c r := (hc.indexed.waits_iff c r).mpr (.inr ⟨rfl, List.mem_cons_self⟩)
  obtain ⟨bm', o, h⟩ := tryUnsuspendBlock_of_waits hwait
  have hshape := tryUnsuspendBlock_shape h
  have hindexed : bm'.IndexedUpTo (ChildrenOf r rest) := by
    refine hc.indexed.tryUnsuspendBlock h fun c' m => ?_
    -- `r` has no entry left, so no listed pair is the one released
    have hlisted : bm.Listed m c' → ¬(c' = c ∧ m = r) := by
      rintro ⟨cs, hcs, -⟩ ⟨rfl, rfl⟩
      exact hkey (AList.lookup_isSome.mp (by simp [hcs]))
    have hrest : c ∉ rest := (List.nodup_cons.mp hnodup).1
    simp only [ChildrenOf, List.mem_cons]
    constructor
    · rintro ⟨hl | ⟨rfl, rfl | hm⟩, hne⟩
      · exact .inl hl
      · exact absurd ⟨rfl, rfl⟩ hne
      · exact .inr ⟨rfl, hm⟩
    · rintro (hl | ⟨rfl, hm⟩)
      · exact ⟨.inl hl, hlisted hl⟩
      · exact ⟨.inr ⟨rfl, .inr hm⟩, fun hcm => hrest (hcm.1 ▸ hm)⟩
  -- what holds whether or not `c` is released
  have hcovered : ∀ c' s', bm'.suspendedBlocks.lookup c' = some s' → ∀ a ∈ s'.block.ancestors,
      Q a ∨ Released start unsuspended a ∨ a ∈ s'.missingAncestors := by
    intro c' s' hs' a ha
    obtain ⟨s₁, hs₁, hblock, -, hkept, -⟩ := lookup_of_tryUnsuspendBlock h hs'
    rcases hc.covered c' s₁ hs₁ a (hblock ▸ ha) with hq | hrel | hm
    · exact .inl hq
    · exact .inr (.inl hrel)
    · rcases hkept a hm with rfl | hm'
      · exact .inr (.inl hr)
      · exact .inr (.inr hm')
  have hblock : ∀ c' s', bm'.suspendedBlocks.lookup c' = some s' →
      ∃ s₀, suspended₀.lookup c' = some s₀ ∧ s₀.block = s'.block := by
    intro c' s' hs'
    obtain ⟨s₁, hs₁, hblock, -⟩ := lookup_of_tryUnsuspendBlock h hs'
    rw [hblock]
    exact hc.suspended_block c' s₁ hs₁
  have hunheld : ∀ c' m, bm'.Waits c' m →
      bm'.dagState.containsBlock m = false ∨ Released start unsuspended m := by
    intro c' m hw
    rw [hshape]
    exact hc.waits_unheld c' m ((waits_of_tryUnsuspendBlock h c' m).mp hw).1
  have hmem := mem_of_tryUnsuspendBlock_iff h
  have hlength := length_of_tryUnsuspendBlock h
  have hfuel := hc.fuel_le
  obtain ⟨s, hs, ⟨rfl, hmissing, hnone⟩ | ⟨rfl, -, -⟩⟩ := tryUnsuspendBlock_released h
  · -- `c` missed only `r`: it leaves the suspended map and is pushed
    have href : s.block.reference = c := hc.indexed.suspended_reference c s hs
    have hsus : c ∈ bm.suspendedBlocks := AList.lookup_isSome.mp (by simp [hs])
    have hnew : ¬Released start unsuspended c := fun hrel => hc.released_not_suspended c hrel hsus
    refine ⟨(bm', s.block.reference :: toProcess, unsuspended ++ [s.block]), by simp [unsuspendChild, h], ?_,
      hshape, _, rfl⟩
    refine ⟨hindexed, fun c' m hw => (hunheld c' m hw).imp_right (Iff.mpr released_append ∘ .inl), ?_, ?_, ?_, ?_, ?_,
      fun c' s' hs' a ha => ?_, ?_, ?_, hblock, ?_, ?_, ?_⟩
    · intro m hm
      rw [released_append]
      rcases List.mem_cons.mp hm with rfl | hm
      · exact .inr rfl
      · exact .inl (hc.toProcess_released m hm)
    · intro m hm hkey'
      rw [hshape] at hkey'
      rcases Iff.mp released_append hm with hm | rfl
      · exact List.mem_cons_of_mem _ (hc.released_listed m hm hkey')
      · exact List.mem_cons_self
    · intro m hm
      rw [hshape]
      rcases Iff.mp released_append hm with hm | rfl
      · exact hc.released_not_missing m hm
      · rw [href]
        exact fun hmb => hc.indexed.missingBlocks_not_suspended c hmb hsus
    · intro m hm hsus'
      rcases Iff.mp released_append hm with hm | rfl
      · exact hc.released_not_suspended m hm ((hmem m).mpr (.inl hsus'))
      · rw [href] at hsus'
        simp [← AList.lookup_isSome, hnone] at hsus'
    · simp only [Option.isSome_some, if_true] at hlength
      simp only [List.length_cons]
      omega
    · rcases hcovered c' s' hs' a ha with hq | hrel | hm
      · exact .inl hq
      · exact .inr (.inl (Iff.mpr released_append (.inl hrel)))
      · exact .inr (.inr hm)
    · refine hc.ordered.append fun a ha => ?_
      rcases hc.covered c s hs a ha with hq | hrel | hm
      · exact .inl hq
      · exact .inr hrel
      · rw [hmissing, Finset.mem_singleton] at hm
        exact .inr (hm ▸ hr)
    · intro c'
      rw [hc.suspended_or_unsuspended c', hmem c']
      simp only [Option.isSome_some, and_true, List.mem_append, List.mem_singleton, or_and_right, exists_or,
        exists_eq_left, href]
      constructor
      · rintro ((h₁ | rfl) | h₂)
        · exact .inl h₁
        · exact .inr (.inr rfl)
        · exact .inr (.inl h₂)
      · rintro (h₁ | h₂ | rfl)
        · exact .inl (.inl h₁)
        · exact .inr h₂
        · exact .inl (.inr rfl)
    · intro b hb
      rcases List.mem_append.mp hb with hb | hb
      · exact hc.unsuspended_block b hb
      · rw [List.mem_singleton.mp hb, href]
        exact hc.suspended_block c s hs
    · rw [List.map_append, List.nodup_append]
      refine ⟨hc.unsuspended_nodup, by simp, ?_⟩
      simp only [List.map_cons, List.map_nil, List.mem_singleton, List.mem_map]
      rintro a ⟨b, hb, rfl⟩ _ rfl heq
      exact hnew (.inr ⟨b, hb, heq.trans href⟩)
    · intro b hb
      rcases List.mem_append.mp hb with hb | hb
      · exact hc.start_not_unsuspended b hb
      · rw [List.mem_singleton.mp hb, href]
        exact fun hstart => hnew (.inl hstart)
  · -- `c` still misses something: it stays suspended
    refine ⟨(bm', toProcess, unsuspended), by simp [unsuspendChild, h], ?_, hshape, [], (List.append_nil _).symm⟩
    refine ⟨hindexed, hunheld, hc.toProcess_released, ?_, ?_, ?_, ?_, hcovered, hc.ordered, ?_, hblock,
      hc.unsuspended_block, hc.unsuspended_nodup, hc.start_not_unsuspended⟩
    · intro m hm hkey'
      rw [hshape] at hkey'
      exact hc.released_listed m hm hkey'
    · intro m hm
      rw [hshape]
      exact hc.released_not_missing m hm
    · intro m hm hsus'
      exact hc.released_not_suspended m hm ((hmem m).mpr (.inl hsus'))
    · simp only [Option.isSome_none, Bool.false_eq_true, if_false, Nat.add_zero] at hlength
      show toProcess.length + bm'.suspendedBlocks.entries.length ≤ fuel
      omega
    · intro c'
      rw [hc.suspended_or_unsuspended c', hmem c']
      simp

theorem Released.append_right {start m : BlockRef} {unsuspended : List VerifiedBlock}
    (h : Released start unsuspended m) (extra : List VerifiedBlock) : Released start (unsuspended ++ extra) m :=
  h.imp_right fun ⟨b, hb, hbm⟩ => ⟨b, List.mem_append_left _ hb, hbm⟩

theorem IndexedUpTo.congr_pending {pending pending' : BlockRef → BlockRef → Prop} {bm : BlockManager}
    (h : bm.IndexedUpTo pending) (hp : ∀ m c, pending m c ↔ pending' m c) : bm.IndexedUpTo pending' :=
  { h with waits_iff := fun c m => (h.waits_iff c m).trans (or_congr_right (hp m c)) }

theorem Cascade.congr_pending {pending pending' : BlockRef → BlockRef → Prop}
    (h : Cascade Q suspended₀ start pending bm toProcess unsuspended fuel) (hp : ∀ m c, pending m c ↔ pending' m c) :
    Cascade Q suspended₀ start pending' bm toProcess unsuspended fuel :=
  { h with indexed := h.indexed.congr_pending hp }

theorem foldlM_unsuspendChild_cascade :
    ∀ {rest toProcess : List BlockRef} {unsuspended : List VerifiedBlock} {bm : BlockManager},
      Cascade Q suspended₀ start (ChildrenOf r rest) bm toProcess unsuspended fuel →
      Released start unsuspended r → r ∉ bm.missingAncestors → rest.Nodup →
      ∃ acc, rest.foldlM (unsuspendChild r) (bm, toProcess, unsuspended) = .ok acc ∧
        Cascade Q suspended₀ start (fun _ _ => False) acc.1 acc.2.1 acc.2.2 fuel ∧
        acc.1 = { bm with suspendedBlocks := acc.1.suspendedBlocks } ∧ ∃ extra, acc.2.2 = unsuspended ++ extra
  | [], toProcess, unsuspended, bm, hc, _, _, _ =>
    ⟨_, rfl, hc.congr_pending fun _ _ => by simp [ChildrenOf], rfl, [], (List.append_nil _).symm⟩
  | c :: rest, toProcess, unsuspended, bm, hc, hr, hkey, hnodup => by
    obtain ⟨⟨bm₁, toProcess₁, unsuspended₁⟩, hstep, hc₁, hframe₁, extra₁, hextra₁⟩ :=
      unsuspendChild_cascade hc hr hkey hnodup
    dsimp only at hc₁ hframe₁ hextra₁
    have hkey₁ : r ∉ bm₁.missingAncestors := by
      rw [hframe₁]
      exact hkey
    obtain ⟨acc, hrest, hacc, hframe, extra, hextra⟩ := foldlM_unsuspendChild_cascade hc₁
      (hextra₁ ▸ hr.append_right extra₁) hkey₁ (List.nodup_cons.mp hnodup).2
    refine ⟨acc, by rw [List.foldlM_cons, hstep]; exact hrest, hacc, ?_, extra₁ ++ extra, ?_⟩
    · rw [hframe, hframe₁]
    · rw [hextra, hextra₁, List.append_assoc]

theorem Cascade.mono_fuel {fuel' : ℕ} (h : Cascade Q suspended₀ start pending bm toProcess unsuspended fuel)
    (hle : fuel ≤ fuel') : Cascade Q suspended₀ start pending bm toProcess unsuspended fuel' :=
  { h with fuel_le := h.fuel_le.trans hle }

theorem IndexedUpTo.eraseKey {children : Finset BlockRef} (hi : bm.IndexedUpTo fun _ _ => False)
    (hcs : bm.missingAncestors.lookup r = some children) (hmb : r ∉ bm.missingBlocks) :
    ({ bm with missingAncestors := bm.missingAncestors.erase r } : BlockManager).IndexedUpTo
      (ChildrenOf r (ascending children)) where
  suspended_reference := hi.suspended_reference
  suspended_missing := hi.suspended_missing
  waits_iff := by
    intro c m
    change bm.Waits c m ↔ _
    rw [hi.waits_iff, or_false]
    by_cases hm : m = r
    · subst hm
      simp [Listed, AList.lookup_erase, hcs, ChildrenOf]
    · simp [Listed, AList.lookup_erase_ne hm, ChildrenOf, hm]
  missingBlocks_listed := fun m hm =>
    AList.mem_erase.mpr ⟨fun hmr => hmb (hmr ▸ hm), hi.missingBlocks_listed m hm⟩
  missingBlocks_not_suspended := hi.missingBlocks_not_suspended
  missingBlocks_not_held := hi.missingBlocks_not_held

end Child

theorem tryUnsuspendChildrenBlocksLoop_cascade {Q : BlockRef → Prop}
    {suspended₀ : AList (fun _ : BlockRef => SuspendedBlock)} {start : BlockRef} :
    ∀ {fuel : ℕ} {bm : BlockManager} {toProcess : List BlockRef} {unsuspended : List VerifiedBlock},
      Cascade Q suspended₀ start (fun _ _ => False) bm toProcess unsuspended fuel →
      ∃ bm' unsuspended', tryUnsuspendChildrenBlocksLoop fuel bm toProcess unsuspended = .ok (bm', unsuspended') ∧
        Cascade Q suspended₀ start (fun _ _ => False) bm' [] unsuspended' fuel ∧
        bm'.dagState = bm.dagState ∧ bm'.missingBlocks = bm.missingBlocks ∧
        ∃ extra, unsuspended' = unsuspended ++ extra
  | 0, bm, toProcess, unsuspended, hc => by
    -- no rounds left means nothing left to process
    have hnil : toProcess = [] := List.eq_nil_of_length_eq_zero (by have := hc.fuel_le; omega)
    subst hnil
    exact ⟨bm, unsuspended, rfl, hc, rfl, rfl, [], (List.append_nil _).symm⟩
  | _ + 1, bm, [], unsuspended, hc => ⟨bm, unsuspended, rfl, hc, rfl, rfl, [], (List.append_nil _).symm⟩
  | n + 1, bm, r :: toProcess, unsuspended, hc => by
    have hr : Released start unsuspended r := hc.toProcess_released r List.mem_cons_self
    have hfuel := hc.fuel_le
    simp only [List.length_cons] at hfuel
    cases hlookup : bm.missingAncestors.lookup r with
    | none =>
      -- `r` has no children: it is simply popped
      have hc' : Cascade Q suspended₀ start (fun _ _ => False) bm toProcess unsuspended n :=
        { hc with
          toProcess_released := fun m hm => hc.toProcess_released m (List.mem_cons_of_mem _ hm)
          released_listed := fun m hm hkey => by
            rcases List.mem_cons.mp (hc.released_listed m hm hkey) with rfl | hm'
            · simp [← AList.lookup_isSome, hlookup] at hkey
            · exact hm'
          fuel_le := by omega }
      obtain ⟨bm', unsuspended', hloop, hc'', hdag, hmb, extra, hextra⟩ := tryUnsuspendChildrenBlocksLoop_cascade hc'
      refine ⟨bm', unsuspended', ?_, hc''.mono_fuel (Nat.le_succ n), hdag, hmb, extra, hextra⟩
      rw [tryUnsuspendChildrenBlocksLoop, hlookup]
      exact hloop
    | some children =>
      have hmb : r ∉ bm.missingBlocks := hc.released_not_missing r hr
      have hc₁ : Cascade Q suspended₀ start (ChildrenOf r (ascending children))
          { bm with missingAncestors := bm.missingAncestors.erase r } toProcess unsuspended n :=
        { hc with
          indexed := hc.indexed.eraseKey hlookup hmb
          toProcess_released := fun m hm => hc.toProcess_released m (List.mem_cons_of_mem _ hm)
          released_listed := fun m hm hkey => by
            obtain ⟨hmr, hkey'⟩ := AList.mem_erase.mp hkey
            rcases List.mem_cons.mp (hc.released_listed m hm hkey') with rfl | hm'
            · exact absurd rfl hmr
            · exact hm'
          fuel_le := by
            show toProcess.length + bm.suspendedBlocks.entries.length ≤ n
            omega }
      obtain ⟨⟨bm₁, toProcess₁, unsuspended₁⟩, hfold, hc₂, hframe, extra₁, hextra₁⟩ :=
        foldlM_unsuspendChild_cascade hc₁ hr (by simp [AList.mem_erase]) (nodup_ascending children)
      dsimp only at hc₂ hframe hextra₁
      obtain ⟨bm', unsuspended', hloop, hc', hdag, hmbs, extra, hextra⟩ := tryUnsuspendChildrenBlocksLoop_cascade hc₂
      refine ⟨bm', unsuspended', ?_, hc'.mono_fuel (Nat.le_succ n), ?_, ?_, extra₁ ++ extra, ?_⟩
      · rw [tryUnsuspendChildrenBlocksLoop, hlookup]
        simp only [except_bind_eq_ok]
        exact ⟨(bm₁, toProcess₁, unsuspended₁), hfold, hloop⟩
      · rw [hdag, hframe]
      · rw [hmbs, hframe]
      · rw [hextra, hextra₁, List.append_assoc]

@[simp] theorem released_nil {start m : BlockRef} : Released start [] m ↔ m = start := by
  simp [Released]

theorem tryUnsuspendChildrenBlocks_cascade {Q : BlockRef → Prop} {bm : BlockManager} {start : BlockRef}
    (hi : bm.IndexedUpTo fun _ _ => False)
    (hunheld : ∀ c m, bm.Waits c m → bm.dagState.containsBlock m = false ∨ m = start)
    (hsus : start ∉ bm.suspendedBlocks) (hmb : start ∉ bm.missingBlocks)
    (hcovered : ∀ c s, bm.suspendedBlocks.lookup c = some s → ∀ a ∈ s.block.ancestors,
      Q a ∨ a = start ∨ a ∈ s.missingAncestors) :
    ∃ bm' unsuspended, bm.tryUnsuspendChildrenBlocks start = .ok (bm', unsuspended) ∧
      Cascade Q bm.suspendedBlocks start (fun _ _ => False) bm' [] unsuspended
        (bm.suspendedBlocks.entries.length + 1) ∧
      bm'.dagState = bm.dagState ∧ bm'.missingBlocks = bm.missingBlocks := by
  have hc : Cascade Q bm.suspendedBlocks start (fun _ _ => False) bm [start] []
      (bm.suspendedBlocks.entries.length + 1) :=
    { indexed := hi
      waits_unheld := fun c m hw => by simpa using hunheld c m hw
      toProcess_released := fun m hm => by simpa using hm
      released_listed := fun m hm _ => by simp_all
      released_not_missing := fun m hm => by simp_all
      released_not_suspended := fun m hm => by simp_all
      fuel_le := by simp [Nat.add_comm]
      covered := fun c s hs a ha => by simpa using hcovered c s hs a ha
      ordered := fun i hi => by simp at hi
      suspended_or_unsuspended := fun c => by simp
      suspended_block := fun c s hs => ⟨s, hs, rfl⟩
      unsuspended_block := fun b hb => by simp at hb
      unsuspended_nodup := List.nodup_nil
      start_not_unsuspended := fun b hb => by simp at hb }
  obtain ⟨bm', unsuspended, hloop, hc', hdag, hmbs, -⟩ := tryUnsuspendChildrenBlocksLoop_cascade hc
  exact ⟨bm', unsuspended, hloop, hc', hdag, hmbs⟩

section Done

variable {Q : BlockRef → Prop} {suspended₀ : AList (fun _ : BlockRef => SuspendedBlock)} {start : BlockRef}
  {bm : BlockManager} {unsuspended : List VerifiedBlock} {fuel : ℕ}

theorem Cascade.released_not_listed (h : Cascade Q suspended₀ start (fun _ _ => False) bm [] unsuspended fuel)
    {m : BlockRef} (hm : Released start unsuspended m) : m ∉ bm.missingAncestors := fun hkey => by
  simpa using h.released_listed m hm hkey

theorem Cascade.waits_not_released (h : Cascade Q suspended₀ start (fun _ _ => False) bm [] unsuspended fuel)
    {c m : BlockRef} (hw : bm.Waits c m) : ¬Released start unsuspended m := by
  intro hm
  obtain ⟨cs, hcs, -⟩ := ((h.indexed.waits_iff c m).mp hw).resolve_right id
  exact h.released_not_listed hm (AList.lookup_isSome.mp (by simp [hcs]))

theorem Cascade.waits_not_held (h : Cascade Q suspended₀ start (fun _ _ => False) bm [] unsuspended fuel)
    {c m : BlockRef} (hw : bm.Waits c m) : bm.dagState.containsBlock m = false :=
  (h.waits_unheld c m hw).resolve_right (h.waits_not_released hw)

end Done

/-! ### The timestamp check -/

section Verify

variable (checkAncestors :
  VerifiedBlock → List (Option VerifiedBlock) → Bool → ℕ → Except Panic (Except ConsensusError Unit))

theorem lookup_of_verifyTimestampsStep {ds : DagState}
    {acc acc' : AList (fun _ : BlockRef => VerifiedBlock) × Finset BlockRef} {b : VerifiedBlock}
    (h : verifyTimestampsStep checkAncestors ds acc b = .ok acc') {k : BlockRef} {v : VerifiedBlock}
    (hv : acc'.1.lookup k = some v) : acc.1.lookup k = some v ∨ v = b := by
  obtain ⟨toAccept, toReject⟩ := acc
  simp only [verifyTimestampsStep, except_bind_eq_ok] at h
  obtain ⟨resolved, -, h⟩ := h
  cases resolved with
  | none =>
    simp only [Except.ok.injEq] at h
    subst h
    exact .inl hv
  | some ancestorBlocks =>
    simp only [except_bind_eq_ok] at h
    obtain ⟨verdict, -, h⟩ := h
    cases verdict with
    | error =>
      simp only [Except.ok.injEq] at h
      subst h
      exact .inl hv
    | ok =>
      simp only [Except.ok.injEq] at h
      subst h
      by_cases hk : k = b.reference
      · subst hk
        rw [AList.lookup_insert] at hv
        exact .inr (Option.some.inj hv).symm
      · rw [AList.lookup_insert_ne hk] at hv
        exact .inl hv

theorem verifyBlockTimestampsAndAccept_frame {bm bm' : BlockManager} {l out : List VerifiedBlock}
    (h : bm.verifyBlockTimestampsAndAccept checkAncestors l = .ok (bm', out)) :
    bm' = { bm with dagState := bm'.dagState } ∧ (∀ b ∈ out, b ∈ l ∧ bm'.dagState.containsBlock b.reference) ∧
      (∀ r, bm.dagState.containsBlock r → bm'.dagState.containsBlock r) ∧
      ∀ r, bm'.dagState.containsBlock r → bm.dagState.containsBlock r ∨ ∃ b ∈ out, b.reference = r := by
  simp only [verifyBlockTimestampsAndAccept, except_bind_eq_ok] at h
  obtain ⟨⟨toAccept, toReject⟩, hfold, ds, hds, h⟩ := h
  simp only [Except.ok.injEq, Prod.mk.injEq] at h
  obtain ⟨rfl, rfl⟩ := h
  have hvalues : ∀ k v, toAccept.lookup k = some v → v ∈ l :=
    foldlM_except_induction (P := fun acc => ∀ k v, acc.1.lookup k = some v → v ∈ l)
      (fun k v hv => by simp [AList.lookup_empty] at hv)
      (fun _ b _ hb hacc hstep k v hv =>
        (lookup_of_verifyTimestampsStep checkAncestors hstep hv).elim (hacc k v) fun hvb => hvb ▸ hb) hfold
  refine ⟨rfl, fun b hb => ⟨?_, DagState.containsBlock_of_mem_acceptBlocks hds b hb⟩,
    fun r hr => DagState.containsBlock_of_acceptBlocks hds hr,
    fun r hr => DagState.containsBlock_acceptBlocks_cases hds hr⟩
  obtain ⟨k, hk⟩ := mem_valuesAscending.mp hb
  exact hvalues k b hk

theorem indexed_of_verifyBlockTimestampsAndAccept {Q : BlockRef → Prop}
    {suspended₀ : AList (fun _ : BlockRef => SuspendedBlock)} {start : BlockRef} {bm bm' : BlockManager}
    {unsuspended l out : List VerifiedBlock} {fuel : ℕ}
    (hc : Cascade Q suspended₀ start (fun _ _ => False) bm [] unsuspended fuel)
    (hl : ∀ b ∈ l, Released start unsuspended b.reference)
    (h : bm.verifyBlockTimestampsAndAccept checkAncestors l = .ok (bm', out)) : bm'.Indexed := by
  obtain ⟨hframe, hout, -, hheld⟩ := verifyBlockTimestampsAndAccept_frame checkAncestors h
  -- a block held now was held before, or is a released block just handed over
  have hnew : ∀ m, bm'.dagState.containsBlock m → bm.dagState.containsBlock m ∨ Released start unsuspended m := by
    intro m hm
    rcases hheld m hm with hm | ⟨b, hb, rfl⟩
    · exact .inl hm
    · exact .inr (hl b (hout b hb).1)
  rw [hframe] at hnew ⊢
  exact
    { hc.indexed with
      missingBlocks_not_held := fun m hm => by
        cases hd : bm'.dagState.containsBlock m
        · rfl
        · rcases hnew m hd with hd' | hrel
          · simp [hc.indexed.missingBlocks_not_held m hm] at hd'
          · exact absurd hm (hc.released_not_missing m hrel)
      waits_not_held := fun c m hw => by
        cases hd : bm'.dagState.containsBlock m
        · rfl
        · rcases hnew m hd with hd' | hrel
          · simp [hc.waits_not_held hw] at hd'
          · exact absurd hrel (hc.waits_not_released hw) }

end Verify

/-! ### Accepting one block -/

section AcceptOne

theorem listed_addMissingChild {bm : BlockManager} {a c₀ m c : BlockRef} :
    ({ bm with missingAncestors := addMissingChild bm.missingAncestors a c₀ } : BlockManager).Listed m c ↔
      bm.Listed m c ∨ m = a ∧ c = c₀ := by
  unfold Listed addMissingChild
  by_cases hm : m = a
  · subst hm
    cases bm.missingAncestors.lookup m with
    | none => simp [AList.lookup_insert]
    | some cs => simp [AList.lookup_insert, or_comm]
  · simp [AList.lookup_insert_ne hm, hm]

/-- What marking the ancestors `ancestors` of the block `r` as missing does to
the maps: `r` is listed under each of them, and those not suspended become
missing blocks. -/
structure Marked (r : BlockRef) (ancestors : List BlockRef) (bm bm' : BlockManager) : Prop where
  dagState : bm'.dagState = bm.dagState
  suspendedBlocks : bm'.suspendedBlocks = bm.suspendedBlocks
  listed : ∀ m c, bm'.Listed m c ↔ bm.Listed m c ∨ m ∈ ancestors ∧ c = r
  mem_missingAncestors : ∀ m, m ∈ bm'.missingAncestors ↔ m ∈ bm.missingAncestors ∨ m ∈ ancestors
  missingBlocks : ∀ m ∈ bm'.missingBlocks, m ∈ bm.missingBlocks ∨ m ∈ ancestors ∧ m ∉ bm.suspendedBlocks

theorem Marked.nil (r : BlockRef) (bm : BlockManager) : Marked r [] bm bm where
  dagState := rfl
  suspendedBlocks := rfl
  listed := by simp
  mem_missingAncestors := by simp
  missingBlocks := fun m hm => .inl hm

theorem Marked.cons {r a : BlockRef} {ancestors : List BlockRef} {bm bm₁ bm₂ : BlockManager}
    (h₁ : Marked r [a] bm bm₁) (h₂ : Marked r ancestors bm₁ bm₂) : Marked r (a :: ancestors) bm bm₂ where
  dagState := h₂.dagState.trans h₁.dagState
  suspendedBlocks := h₂.suspendedBlocks.trans h₁.suspendedBlocks
  listed m c := by
    rw [h₂.listed, h₁.listed]
    simp only [List.mem_cons]
    tauto
  mem_missingAncestors m := by
    rw [h₂.mem_missingAncestors, h₁.mem_missingAncestors]
    simp only [List.mem_cons]
    tauto
  missingBlocks m hm := by
    rcases h₂.missingBlocks m hm with hm₁ | ⟨hm₁, hsus⟩
    · rcases h₁.missingBlocks m hm₁ with hm₀ | ⟨hma, hsus⟩
      · exact .inl hm₀
      · exact .inr ⟨List.mem_cons.mpr (.inl (List.mem_singleton.mp hma)), hsus⟩
    · rw [h₁.suspendedBlocks] at hsus
      exact .inr ⟨List.mem_cons_of_mem _ hm₁, hsus⟩

theorem marked_markMissingAncestor (r : BlockRef) (acc : BlockManager × Finset BlockRef × Finset BlockRef)
    (a : BlockRef) :
    Marked r [a] acc.1 (markMissingAncestor r acc a).1 ∧ (markMissingAncestor r acc a).2.1 = insert a acc.2.1 := by
  obtain ⟨bm, missing, toFetch⟩ := acc
  have hlisted : ∀ m c, ({ bm with missingAncestors := addMissingChild bm.missingAncestors a r } :
      BlockManager).Listed m c ↔ bm.Listed m c ∨ m ∈ [a] ∧ c = r := fun m c => by
    rw [listed_addMissingChild, List.mem_singleton]
  have hkeys : ∀ m, m ∈ addMissingChild bm.missingAncestors a r ↔ m ∈ bm.missingAncestors ∨ m ∈ [a] :=
    fun m => by rw [addMissingChild, AList.mem_insert, List.mem_singleton, or_comm]
  simp only [markMissingAncestor]
  split_ifs with hsus
  · exact ⟨⟨rfl, rfl, hlisted, hkeys, fun m hm => .inl hm⟩, rfl⟩
  · refine ⟨⟨rfl, rfl, hlisted, hkeys, fun m hm => ?_⟩, rfl⟩
    rcases Finset.mem_insert.mp hm with rfl | hm
    · exact .inr ⟨List.mem_singleton_self m, hsus⟩
    · exact .inl hm

theorem marked_foldl_markMissingAncestor (r : BlockRef) :
    ∀ (ancestors : List BlockRef) (acc : BlockManager × Finset BlockRef × Finset BlockRef),
      Marked r ancestors acc.1 (ancestors.foldl (markMissingAncestor r) acc).1 ∧
        (ancestors.foldl (markMissingAncestor r) acc).2.1 = acc.2.1 ∪ ancestors.toFinset
  | [], acc => ⟨Marked.nil r acc.1, by simp⟩
  | a :: ancestors, acc => by
    obtain ⟨h₁, hmissing₁⟩ := marked_markMissingAncestor r acc a
    obtain ⟨h₂, hmissing₂⟩ := marked_foldl_markMissingAncestor r ancestors (markMissingAncestor r acc a)
    refine ⟨h₁.cons h₂, ?_⟩
    rw [List.foldl_cons, hmissing₂, hmissing₁, List.toFinset_cons, Finset.insert_union, Finset.union_insert]

theorem marked_of_foldl_markMissingAncestor_eq {r : BlockRef} {ancestors : List BlockRef}
    {acc : BlockManager × Finset BlockRef × Finset BlockRef} {bm' : BlockManager} {missing toFetch : Finset BlockRef}
    (h : ancestors.foldl (markMissingAncestor r) acc = (bm', missing, toFetch)) :
    Marked r ancestors acc.1 bm' ∧ missing = acc.2.1 ∪ ancestors.toFinset := by
  have := marked_foldl_markMissingAncestor r ancestors acc
  rw [h] at this
  exact this

theorem mem_gcFilter_iff {ds : DagState} {b : VerifiedBlock} {a : BlockRef} :
    a ∈ (if ds.gcEnabled then b.ancestors.filter (fun a => a.round = GENESIS_ROUND ∨ ds.gcRound < a.round)
      else b.ancestors) ↔ a ∈ b.ancestors ∧ ¬ds.gcCollects a := by
  unfold DagState.gcCollects GENESIS_ROUND
  cases ds.gcEnabled
  · simp
  · simp only [if_true, List.mem_filter, decide_eq_true_eq, true_and, not_and, not_le]
    constructor
    · rintro ⟨ha, h0 | hgc⟩ <;> exact ⟨ha, by omega⟩
    · rintro ⟨ha, h⟩
      exact ⟨ha, by omega⟩

variable {bm bm' : BlockManager} {b : VerifiedBlock}

theorem tryAcceptOneBlock_eq_accepted {b' : VerifiedBlock}
    (h : bm.tryAcceptOneBlock b = (bm', .accepted b')) :
    b' = b ∧ bm' = { bm with missingBlocks := bm.missingBlocks.erase b.reference } ∧
      b.reference ∉ bm.suspendedBlocks ∧ bm.dagState.containsBlock b.reference = false ∧
      ∀ a ∈ b.ancestors, bm.dagState.containsBlock a ∨ bm.dagState.gcCollects a := by
  unfold tryAcceptOneBlock at h
  dsimp only at h
  by_cases hseen : b.reference ∈ bm.suspendedBlocks ∨ bm.dagState.containsBlock b.reference
  · rw [if_pos hseen] at h
    cases h
  rw [if_neg hseen] at h
  by_cases hgc : bm.dagState.gcEnabled ∧ b.round ≤ bm.dagState.gcRound
  · rw [if_pos hgc] at h
    cases h
  rw [if_neg hgc] at h
  generalize hL : List.filter (fun a => !bm.dagState.containsBlock a) _ = ancestors at h
  generalize hfold : List.foldl (markMissingAncestor b.reference) (bm, ∅, ∅) ancestors = acc at h
  obtain ⟨bm₁, missing, toFetch⟩ := acc
  obtain ⟨-, rfl⟩ := marked_of_foldl_markMissingAncestor_eq hfold
  split_ifs at h with hne
  · cases h
  -- nothing is missing: the fold ran over no ancestor at all
  have hnil : ancestors = [] := by simpa [Finset.nonempty_iff_ne_empty] using hne
  subst hnil
  simp only [List.foldl_nil, Prod.mk.injEq] at hfold h
  obtain ⟨rfl, -, -⟩ := hfold
  obtain ⟨rfl, h⟩ := h
  cases h
  refine ⟨rfl, rfl, fun hsus => hseen (.inl hsus), by simpa using fun hd => hseen (.inr hd), fun a ha => ?_⟩
  by_contra hno
  have hmem : a ∈ List.filter (fun a => !bm.dagState.containsBlock a)
      (if bm.dagState.gcEnabled then
        b.ancestors.filter (fun a => a.round = GENESIS_ROUND ∨ bm.dagState.gcRound < a.round)
      else b.ancestors) := by
    rw [List.mem_filter, mem_gcFilter_iff]
    simp only [not_or, Bool.not_eq_true] at hno
    simp [ha, hno]
  rw [hL] at hmem
  cases hmem

theorem tryAcceptOneBlock_eq_suspended {toFetch : Finset BlockRef}
    (h : bm.tryAcceptOneBlock b = (bm', .suspended toFetch)) :
    ∃ bm₁ ancestors, Marked b.reference ancestors bm bm₁ ∧ ancestors ≠ [] ∧
      (∀ a, a ∈ ancestors ↔ a ∈ b.ancestors ∧ bm.dagState.containsBlock a = false ∧ ¬bm.dagState.gcCollects a) ∧
      b.reference ∉ bm.suspendedBlocks ∧ bm.dagState.containsBlock b.reference = false ∧
      bm' = { bm₁ with
        suspendedBlocks := bm₁.suspendedBlocks.insert b.reference ⟨b, ancestors.toFinset⟩
        missingBlocks := bm₁.missingBlocks.erase b.reference } := by
  unfold tryAcceptOneBlock at h
  dsimp only at h
  by_cases hseen : b.reference ∈ bm.suspendedBlocks ∨ bm.dagState.containsBlock b.reference
  · rw [if_pos hseen] at h
    cases h
  rw [if_neg hseen] at h
  by_cases hgc : bm.dagState.gcEnabled ∧ b.round ≤ bm.dagState.gcRound
  · rw [if_pos hgc] at h
    cases h
  rw [if_neg hgc] at h
  generalize hL : List.filter (fun a => !bm.dagState.containsBlock a) _ = ancestors at h
  generalize hfold : List.foldl (markMissingAncestor b.reference) (bm, ∅, ∅) ancestors = acc at h
  obtain ⟨bm₁, missing, toFetch⟩ := acc
  obtain ⟨hmarked, rfl⟩ := marked_of_foldl_markMissingAncestor_eq hfold
  split_ifs at h with hne
  · simp only [Prod.mk.injEq] at h
    obtain ⟨rfl, -⟩ := h
    refine ⟨bm₁, ancestors, hmarked, fun hnil => by simp [hnil] at hne, fun a => ?_,
      fun hsus => hseen (.inl hsus), by simpa using fun hd => hseen (.inr hd), by simp⟩
    rw [← hL, List.mem_filter, mem_gcFilter_iff]
    simp only [Bool.not_eq_true']
    tauto
  · cases h

theorem tryAcceptOneBlock_of_seen {res : TryAcceptResult} (h : bm.tryAcceptOneBlock b = (bm', res))
    (hres : res = .processed ∨ res = .skipped) : bm' = bm := by
  unfold tryAcceptOneBlock at h
  dsimp only at h
  split_ifs at h <;> first
    | exact (Prod.mk.inj h).1.symm
    | (obtain ⟨-, rfl⟩ := Prod.mk.inj h; simp at hres)

theorem waits_insert {bm : BlockManager} {r c m : BlockRef} {s : SuspendedBlock} :
    ({ bm with suspendedBlocks := bm.suspendedBlocks.insert r s } : BlockManager).Waits c m ↔
      c = r ∧ m ∈ s.missingAncestors ∨ c ≠ r ∧ bm.Waits c m := by
  by_cases hc : c = r
  · subst hc
    simp [Waits, AList.lookup_insert]
  · simp [Waits, AList.lookup_insert_ne hc, hc]

theorem Indexed.tryAcceptOneBlock_suspended {toFetch : Finset BlockRef} (hi : bm.Indexed)
    (h : bm.tryAcceptOneBlock b = (bm', .suspended toFetch)) : bm'.Indexed := by
  obtain ⟨bm₁, ancestors, hm, hne, hmem, hsus, -, rfl⟩ := tryAcceptOneBlock_eq_suspended h
  have hlookup : ∀ c s, (bm₁.suspendedBlocks.insert b.reference ⟨b, ancestors.toFinset⟩).lookup c = some s →
      c = b.reference ∧ s = ⟨b, ancestors.toFinset⟩ ∨ c ≠ b.reference ∧ bm.suspendedBlocks.lookup c = some s := by
    intro c s hs
    rw [hm.suspendedBlocks] at hs
    by_cases hc : c = b.reference
    · subst hc
      rw [AList.lookup_insert] at hs
      exact .inl ⟨rfl, (Option.some.inj hs).symm⟩
    · rw [AList.lookup_insert_ne hc] at hs
      exact .inr ⟨hc, hs⟩
  -- the block was not listed anywhere, since it did not wait on anything
  have hnot_listed : ∀ m, ¬bm.Listed m b.reference := fun m hl =>
    hsus (by
      obtain ⟨s, hs, -⟩ := (hi.waits_iff_listed).mpr hl
      exact AList.lookup_isSome.mp (by simp [hs]))
  have hwaits : ∀ c m,
      ({ bm₁ with suspendedBlocks := bm₁.suspendedBlocks.insert b.reference ⟨b, ancestors.toFinset⟩ } :
        BlockManager).Waits c m ↔ c = b.reference ∧ m ∈ ancestors ∨ c ≠ b.reference ∧ bm.Waits c m := by
    intro c m
    rw [waits_insert, List.mem_toFinset]
    simp only [Waits, hm.suspendedBlocks]
  exact
    { suspended_reference := fun c s hs => by
        rcases hlookup c s hs with ⟨rfl, rfl⟩ | ⟨-, hs⟩
        · rfl
        · exact hi.suspended_reference c s hs
      suspended_missing := fun c s hs => by
        rcases hlookup c s hs with ⟨rfl, rfl⟩ | ⟨-, hs⟩
        · refine ⟨List.toFinset_nonempty_iff _ |>.mpr hne, fun m hma => ?_⟩
          exact ((hmem m).mp (List.mem_toFinset.mp hma)).1
        · exact hi.suspended_missing c s hs
      waits_iff := fun c m => by
        refine (hwaits c m).trans ?_
        show _ ↔ bm₁.Listed m c ∨ False
        rw [or_false, hm.listed, ← hi.waits_iff_listed]
        by_cases hc : c = b.reference
        · subst hc
          simp only [true_and, ne_eq, not_true_eq_false, false_and, or_false, and_true]
          exact ⟨.inr, fun h => h.elim (fun hw => absurd ((hi.waits_iff_listed).mp hw) (hnot_listed m)) id⟩
        · simp [hc]
      waits_not_held := fun c m hw => by
        rcases (hwaits c m).mp hw with ⟨-, hma⟩ | ⟨-, hw⟩
        · rw [hm.dagState]
          exact ((hmem m).mp hma).2.1
        · rw [hm.dagState]
          exact hi.waits_not_held c m hw
      missingBlocks_listed := fun m hmb => by
        show m ∈ bm₁.missingAncestors
        rw [hm.mem_missingAncestors]
        rcases hm.missingBlocks m (Finset.mem_of_mem_erase hmb) with hmb | ⟨hma, -⟩
        · exact .inl (hi.missingBlocks_listed m hmb)
        · exact .inr hma
      missingBlocks_not_suspended := fun m hmb => by
        show m ∉ bm₁.suspendedBlocks.insert b.reference _
        rw [AList.mem_insert, hm.suspendedBlocks, not_or]
        refine ⟨Finset.ne_of_mem_erase hmb, ?_⟩
        rcases hm.missingBlocks m (Finset.mem_of_mem_erase hmb) with hmb | ⟨-, hs⟩
        · exact hi.missingBlocks_not_suspended m hmb
        · exact hs
      missingBlocks_not_held := fun m hmb => by
        show bm₁.dagState.containsBlock m = false
        rw [hm.dagState]
        rcases hm.missingBlocks m (Finset.mem_of_mem_erase hmb) with hmb | ⟨hma, -⟩
        · exact hi.missingBlocks_not_held m hmb
        · exact ((hmem m).mp hma).2.1 }

end AcceptOne

/-! ### Accepting a committed block -/

section Committed

variable {bm : BlockManager} {b : VerifiedBlock} {r : BlockRef}

theorem listed_eraseChild {a m c : BlockRef} :
    ({ bm with missingAncestors := match bm.missingAncestors.lookup a with
        | some refs => bm.missingAncestors.insert a (refs.erase r)
        | none => bm.missingAncestors } : BlockManager).Listed m c ↔ bm.Listed m c ∧ ¬(m = a ∧ c = r) := by
  cases ha : bm.missingAncestors.lookup a with
  | none =>
    simp only [Listed]
    by_cases hm : m = a
    · subst hm
      simp [ha]
    · simp [hm]
  | some refs =>
    simp only [Listed]
    by_cases hm : m = a
    · subst hm
      simp [ha, AList.lookup_insert, Finset.mem_erase, and_comm]
    · simp [AList.lookup_insert_ne hm, hm]

theorem mem_eraseChild {s : AList (fun _ : BlockRef => Finset BlockRef)} {a k : BlockRef} :
    (k ∈ match s.lookup a with
      | some refs => s.insert a (refs.erase r)
      | none => s) ↔ k ∈ s := by
  cases ha : s.lookup a with
  | none => rfl
  | some refs =>
    simp only [AList.mem_insert]
    exact ⟨fun h => h.elim (fun hk => hk ▸ AList.lookup_isSome.mp (by simp [ha])) id, .inr⟩

theorem listed_foldl_eraseChild :
    ∀ (ancestors : List BlockRef) (bm : BlockManager) (m c : BlockRef),
      ({ bm with missingAncestors := ancestors.foldl (fun m ancestor => match m.lookup ancestor with
          | some refs => m.insert ancestor (refs.erase r)
          | none => m) bm.missingAncestors } : BlockManager).Listed m c ↔
        bm.Listed m c ∧ ¬(m ∈ ancestors ∧ c = r)
  | [], bm, m, c => by
    show bm.Listed m c ↔ _
    simp
  | a :: ancestors, bm, m, c => by
    refine (listed_foldl_eraseChild ancestors { bm with missingAncestors := match bm.missingAncestors.lookup a with
      | some refs => bm.missingAncestors.insert a (refs.erase r)
      | none => bm.missingAncestors } m c).trans ?_
    rw [listed_eraseChild, List.mem_cons]
    tauto

theorem mem_foldl_eraseChild :
    ∀ (ancestors : List BlockRef) (s : AList (fun _ : BlockRef => Finset BlockRef)) (k : BlockRef),
      (k ∈ ancestors.foldl (fun m ancestor => match m.lookup ancestor with
          | some refs => m.insert ancestor (refs.erase r)
          | none => m) s) ↔ k ∈ s
  | [], _, _ => Iff.rfl
  | _ :: ancestors, _, k => (mem_foldl_eraseChild ancestors _ k).trans mem_eraseChild

theorem Indexed.eraseMissingBlock (hi : bm.Indexed) (r : BlockRef) :
    ({ bm with missingBlocks := bm.missingBlocks.erase r } : BlockManager).Indexed :=
  { hi with
    missingBlocks_listed := fun m hm => hi.missingBlocks_listed m (Finset.mem_of_mem_erase hm)
    missingBlocks_not_suspended := fun m hm => hi.missingBlocks_not_suspended m (Finset.mem_of_mem_erase hm)
    missingBlocks_not_held := fun m hm => hi.missingBlocks_not_held m (Finset.mem_of_mem_erase hm) }

theorem waits_erase {c m : BlockRef} :
    ({ bm with suspendedBlocks := bm.suspendedBlocks.erase r } : BlockManager).Waits c m ↔ c ≠ r ∧ bm.Waits c m := by
  by_cases hc : c = r
  · subst hc
    simp [Waits, AList.lookup_erase]
  · simp [Waits, AList.lookup_erase_ne hc, hc]

theorem Indexed.removeSuspended {s : SuspendedBlock} (hi : bm.Indexed) (hs : bm.suspendedBlocks.lookup r = some s) :
    ({ bm with
        suspendedBlocks := bm.suspendedBlocks.erase r
        missingAncestors := (ascending s.missingAncestors).foldl (fun m ancestor => match m.lookup ancestor with
          | some refs => m.insert ancestor (refs.erase r)
          | none => m) bm.missingAncestors } : BlockManager).Indexed := by
  have hlookup : ∀ c s', (bm.suspendedBlocks.erase r).lookup c = some s' → bm.suspendedBlocks.lookup c = some s' :=
    fun c s' hs' => by
      by_cases hc : c = r
      · subst hc
        simp [AList.lookup_erase] at hs'
      · rwa [AList.lookup_erase_ne hc] at hs'
  exact
    { suspended_reference := fun c s' hs' => hi.suspended_reference c s' (hlookup c s' hs')
      suspended_missing := fun c s' hs' => hi.suspended_missing c s' (hlookup c s' hs')
      waits_iff := fun c m => by
        refine (@waits_erase bm _ _ _).trans ?_
        rw [or_false]
        refine Iff.trans ?_ (listed_foldl_eraseChild _ bm m c).symm
        rw [mem_ascending, ← hi.waits_iff_listed]
        by_cases hc : c = r
        · subst hc
          simp only [ne_eq, not_true_eq_false, false_and, and_true, false_iff, not_and, not_not]
          intro ⟨s', hs', hm⟩
          rw [hs] at hs'
          exact Option.some.inj hs' ▸ hm
        · simp [hc]
      waits_not_held := fun c m hw => hi.waits_not_held c m ((@waits_erase bm _ _ _).mp hw).2
      missingBlocks_listed := fun m hm => (mem_foldl_eraseChild _ _ m).mpr (hi.missingBlocks_listed m hm)
      missingBlocks_not_suspended := fun m hm hsus =>
        hi.missingBlocks_not_suspended m hm (AList.mem_erase.mp hsus).2
      missingBlocks_not_held := hi.missingBlocks_not_held }

theorem Indexed.acceptBlocks_singleton {ds : DagState} (hi : bm.Indexed)
    (hds : bm.dagState.acceptBlocks [b] = .ok ds) (hmb : b.reference ∉ bm.missingBlocks) :
    ({ bm with dagState := ds } : BlockManager).IndexedUpTo (fun _ _ => False) ∧
      ∀ c m, bm.Waits c m → ds.containsBlock m = false ∨ m = b.reference := by
  have hnew : ∀ m, ds.containsBlock m → bm.dagState.containsBlock m ∨ m = b.reference := fun m hm =>
    (DagState.containsBlock_acceptBlocks_cases hds hm).imp_right fun ⟨b', hb', hr⟩ => by
      rw [List.mem_singleton] at hb'
      rw [← hr, hb']
  refine ⟨{ hi.toIndexedUpTo with missingBlocks_not_held := fun m hm => ?_ }, fun c m hw => ?_⟩
  · cases hd : ds.containsBlock m
    · rfl
    · rcases hnew m hd with hd' | rfl
      · simp [hi.missingBlocks_not_held m hm] at hd'
      · exact absurd hm hmb
  · cases hd : ds.containsBlock m
    · exact .inl rfl
    · exact (hnew m hd).imp (fun hd' => by simp [hi.waits_not_held c m hw] at hd') id

theorem Indexed.tryAcceptOneCommittedBlock {bm' : BlockManager} {res : TryAcceptResult} (hi : bm.Indexed)
    (h : bm.tryAcceptOneCommittedBlock b = .ok (bm', res)) :
    res = .processed ∧ bm' = bm ∨
      res = .accepted b ∧ bm'.IndexedUpTo (fun _ _ => False) ∧
        (∀ c m, bm'.Waits c m → bm'.dagState.containsBlock m = false ∨ m = b.reference) ∧
        b.reference ∉ bm'.suspendedBlocks ∧ b.reference ∉ bm'.missingBlocks := by
  unfold BlockManager.tryAcceptOneCommittedBlock at h
  dsimp only at h
  split_ifs at h with hheld
  · cases h
    exact .inl ⟨rfl, rfl⟩
  rw [except_bind_eq_ok] at h
  obtain ⟨ds, hds, h⟩ := h
  cases h
  refine .inr ⟨rfl, ?_⟩
  have hi₀ := hi.eraseMissingBlock b.reference
  cases hs : bm.suspendedBlocks.lookup b.reference with
  | none =>
    simp only [hs] at hds ⊢
    obtain ⟨hidx, hunheld⟩ := hi₀.acceptBlocks_singleton hds (by simp)
    exact ⟨hidx, hunheld, fun hsus => by simp [← AList.lookup_isSome, hs] at hsus, by simp⟩
  | some s =>
    simp only [hs] at hds ⊢
    obtain ⟨hidx, hunheld⟩ := (hi₀.removeSuspended hs).acceptBlocks_singleton hds (by simp)
    exact ⟨hidx, hunheld, by simp [AList.mem_erase], by simp⟩

end Committed

/-! ### The entry points -/

section EntryPoints

variable (checkAncestors :
  VerifiedBlock → List (Option VerifiedBlock) → Bool → ℕ → Except Panic (Except ConsensusError Unit))

theorem indexed_of_unsuspend_verify {bm₁ bm₂ bm₃ : BlockManager} {r : BlockRef}
    {toVerify unsuspended verified : List VerifiedBlock} (hi : bm₁.IndexedUpTo fun _ _ => False)
    (hunheld : ∀ c m, bm₁.Waits c m → bm₁.dagState.containsBlock m = false ∨ m = r)
    (hsus : r ∉ bm₁.suspendedBlocks) (hmb : r ∉ bm₁.missingBlocks) (htoVerify : ∀ b ∈ toVerify, b.reference = r)
    (h₂ : bm₁.tryUnsuspendChildrenBlocks r = .ok (bm₂, unsuspended))
    (h₃ : bm₂.verifyBlockTimestampsAndAccept checkAncestors (toVerify ++ unsuspended) = .ok (bm₃, verified)) :
    bm₃.Indexed := by
  obtain ⟨bm₂', unsuspended', hloop, hc, -, -⟩ :=
    tryUnsuspendChildrenBlocks_cascade (Q := fun _ => True) hi hunheld hsus hmb (fun _ _ _ _ _ => .inl trivial)
  rw [hloop, Except.ok.injEq, Prod.mk.injEq] at h₂
  obtain ⟨rfl, rfl⟩ := h₂
  refine indexed_of_verifyBlockTimestampsAndAccept checkAncestors hc (fun b hb => ?_) h₃
  rcases List.mem_append.mp hb with hb | hb
  · exact .inl (htoVerify b hb)
  · exact .inr ⟨b, hb, rfl⟩

theorem Indexed.acceptStep {committed : Bool} {acc acc' : BlockManager × List VerifiedBlock × Finset BlockRef}
    {block : VerifiedBlock} (hi : acc.1.Indexed) (h : acceptStep checkAncestors committed acc block = .ok acc') :
    acc'.1.Indexed := by
  obtain ⟨bm, accepted, missing⟩ := acc
  cases committed with
  | false =>
    simp only [BlockManager.acceptStep, Bool.false_eq_true, ↓reduceIte, except_bind_eq_ok] at h
    obtain ⟨⟨bm₁, result⟩, hres, h⟩ := h
    rw [Except.ok.injEq] at hres
    cases result with
    | accepted b =>
      obtain ⟨rfl, rfl, hsus, -, -⟩ := tryAcceptOneBlock_eq_accepted hres
      simp only [except_bind_eq_ok, Except.ok.injEq] at h
      obtain ⟨⟨bm₂, unsuspended⟩, hunsuspend, ⟨bm₃, verified⟩, hverify, rfl⟩ := h
      exact indexed_of_unsuspend_verify checkAncestors (hi.eraseMissingBlock _).toIndexedUpTo
        (fun c m hw => .inl (hi.waits_not_held c m hw)) hsus (by simp) (by simp) hunsuspend hverify
    | suspended toFetch =>
      rw [Except.ok.injEq] at h
      subst h
      exact hi.tryAcceptOneBlock_suspended hres
    | processed =>
      rw [Except.ok.injEq] at h
      subst h
      rw [tryAcceptOneBlock_of_seen hres (.inl rfl)]
      exact hi
    | skipped =>
      rw [Except.ok.injEq] at h
      subst h
      rw [tryAcceptOneBlock_of_seen hres (.inr rfl)]
      exact hi
  | true =>
    simp only [BlockManager.acceptStep, ↓reduceIte, except_bind_eq_ok] at h
    obtain ⟨⟨bm₁, result⟩, hres, h⟩ := h
    rcases hi.tryAcceptOneCommittedBlock hres with ⟨rfl, rfl⟩ | ⟨rfl, hidx, hunheld, hsus, hmb⟩
    · rw [Except.ok.injEq] at h
      subst h
      exact hi
    · simp only [except_bind_eq_ok, Except.ok.injEq] at h
      obtain ⟨⟨bm₂, unsuspended⟩, hunsuspend, ⟨bm₃, verified⟩, hverify, rfl⟩ := h
      exact indexed_of_unsuspend_verify checkAncestors hidx hunheld hsus hmb (by simp) hunsuspend hverify

theorem Indexed.tryAcceptBlocksInternal {bm bm' : BlockManager} {blocks accepted : List VerifiedBlock}
    {committed : Bool} {missing : Finset BlockRef} (hi : bm.Indexed)
    (h : bm.tryAcceptBlocksInternal checkAncestors blocks committed = .ok (bm', accepted, missing)) :
    bm'.Indexed :=
  foldlM_except_induction (P := fun acc => acc.1.Indexed) hi
    (fun _ _ _ _ hacc hstep => hacc.acceptStep checkAncestors hstep) h

theorem Indexed.tryAcceptCommittedBlocks {bm bm' : BlockManager} {blocks accepted : List VerifiedBlock}
    (hi : bm.Indexed) (h : bm.tryAcceptCommittedBlocks checkAncestors blocks = .ok (bm', accepted)) :
    bm'.Indexed := by
  unfold BlockManager.tryAcceptCommittedBlocks at h
  split_ifs at h
  · cases h
    exact hi
  · rw [except_bind_eq_ok] at h
    obtain ⟨⟨bm₁, accepted₁, missing⟩, hinternal, h⟩ := h
    dsimp only at h
    split_ifs at h
    cases h
    exact hi.tryAcceptBlocksInternal checkAncestors hinternal

theorem listed_findBlock {bm : BlockManager} {r m c : BlockRef} :
    ({ bm with missingAncestors :=
        if r ∈ bm.missingAncestors then bm.missingAncestors else bm.missingAncestors.insert r ∅ } :
      BlockManager).Listed m c ↔ bm.Listed m c := by
  split_ifs with hr
  · rfl
  · by_cases hm : m = r
    · subst hm
      simp [Listed, AList.lookup_insert, AList.lookup_eq_none.mpr hr]
    · simp [Listed, AList.lookup_insert_ne hm]

theorem Indexed.findBlock {acc : BlockManager × Finset BlockRef} (hi : acc.1.Indexed) (r : BlockRef) :
    (BlockManager.findBlock acc r).1.Indexed := by
  obtain ⟨bm, missing⟩ := acc
  unfold BlockManager.findBlock
  dsimp only
  by_cases hseen : bm.dagState.containsBlock r ∨ r ∈ bm.suspendedBlocks
  · rw [if_pos hseen]
    exact hi
  rw [if_neg hseen]
  by_cases hmb : r ∈ bm.missingBlocks
  · rw [if_pos hmb]
    exact hi
  rw [if_neg hmb]
  · have hkey : ∀ m, m ∈ bm.missingAncestors →
        m ∈ (if r ∈ bm.missingAncestors then bm.missingAncestors else bm.missingAncestors.insert r ∅) :=
      fun m hm => by split_ifs <;> simp [AList.mem_insert, hm]
    have hr : r ∈ (if r ∈ bm.missingAncestors then bm.missingAncestors else bm.missingAncestors.insert r ∅) := by
      split_ifs with h
      · exact h
      · simp [AList.mem_insert]
    exact
      { hi with
        waits_iff := fun c m => (hi.waits_iff c m).trans (or_congr_left (Iff.symm listed_findBlock))
        missingBlocks_listed := fun m hm => by
          rcases Finset.mem_insert.mp hm with rfl | hm
          · exact hr
          · exact hkey m (hi.missingBlocks_listed m hm)
        missingBlocks_not_suspended := fun m hm => by
          rcases Finset.mem_insert.mp hm with rfl | hm
          · exact fun hsus => hseen (.inr hsus)
          · exact hi.missingBlocks_not_suspended m hm
        missingBlocks_not_held := fun m hm => by
          rcases Finset.mem_insert.mp hm with rfl | hm
          · simpa using fun hd => hseen (.inl hd)
          · exact hi.missingBlocks_not_held m hm }

theorem indexed_foldl_findBlock :
    ∀ (blockRefs : List BlockRef) (acc : BlockManager × Finset BlockRef), acc.1.Indexed →
      (blockRefs.foldl BlockManager.findBlock acc).1.Indexed
  | [], _, hi => hi
  | r :: blockRefs, _, hi => indexed_foldl_findBlock blockRefs _ (hi.findBlock r)

theorem Indexed.tryFindBlocks {bm : BlockManager} (hi : bm.Indexed) (blockRefs : List BlockRef) :
    (bm.tryFindBlocks blockRefs).1.Indexed :=
  indexed_foldl_findBlock _ (bm, ∅) hi

theorem Indexed.unsuspendBelowGcRoundLoop {gcRound : ℕ} :
    ∀ {n : ℕ} {bm bm' : BlockManager}, bm.Indexed →
      unsuspendBelowGcRoundLoop checkAncestors gcRound n bm = .ok bm' → bm'.Indexed
  | 0, _, _, hi, h => by
    cases h
    exact hi
  | n + 1, bm, bm', hi, h => by
    unfold BlockManager.unsuspendBelowGcRoundLoop at h
    split at h
    · cases h
      exact hi
    · rename_i r _
      split_ifs at h with hround hsus
      · cases h
        exact hi
      · simp only [except_bind_eq_ok] at h
        obtain ⟨⟨bm₂, unsuspended⟩, hunsuspend, ⟨bm₃, verified⟩, hverify, hloop⟩ := h
        have hi₃ : bm₃.Indexed :=
          @indexed_of_unsuspend_verify checkAncestors _ _ _ _ [] _ _ (hi.eraseMissingBlock r).toIndexedUpTo
            (fun c m hw => .inl (hi.waits_not_held c m hw)) hsus (by simp) (by simp) hunsuspend
            (by rwa [List.nil_append])
        exact hi₃.unsuspendBelowGcRoundLoop hloop

theorem Indexed.tryUnsuspendBlocksForLatestGcRound {bm bm' : BlockManager} (hi : bm.Indexed)
    (h : bm.tryUnsuspendBlocksForLatestGcRound checkAncestors = .ok bm') : bm'.Indexed := by
  unfold BlockManager.tryUnsuspendBlocksForLatestGcRound at h
  split_ifs at h
  · cases h
    exact hi
  · exact hi.unsuspendBelowGcRoundLoop checkAncestors h

end EntryPoints

/-! ### No panic of `try_unsuspend_block`

The timestamp check and the DAG state panic on their own conditions only;
the unsuspension loop, run from an indexed state, does not panic at all. -/

section Panics

variable (checkAncestors :
  VerifiedBlock → List (Option VerifiedBlock) → Bool → ℕ → Except Panic (Except ConsensusError Unit))

theorem resolveAncestor_error {ds : DagState} {toAccept : AList (fun _ : BlockRef => VerifiedBlock)}
    {toReject : Finset BlockRef} {block r : BlockRef} {p : Panic}
    (h : resolveAncestor ds toAccept toReject block r = .error p) : p = .unsuspendedMissingAncestor block r := by
  unfold resolveAncestor at h
  split at h
  · cases h
  · split at h
    · cases h
    · -- the two verdicts are values; only the last branch panics
      split_ifs at h
      cases h
      rfl

theorem resolveAncestors_error {ds : DagState} {toAccept : AList (fun _ : BlockRef => VerifiedBlock)}
    {toReject : Finset BlockRef} {block : BlockRef} {p : Panic} :
    ∀ {l : List BlockRef}, resolveAncestors ds toAccept toReject block l = .error p →
      ∃ r ∈ l, p = .unsuspendedMissingAncestor block r
  | [], h => by cases h
  | r :: rest, h => by
    rw [resolveAncestors, except_bind_eq_error] at h
    rcases h with h | ⟨found, -, h⟩
    · exact ⟨r, List.mem_cons_self, resolveAncestor_error h⟩
    cases found with
    | none => cases h
    | some found =>
      rw [except_bind_eq_error] at h
      rcases h with h | ⟨founds, -, h⟩
      · obtain ⟨r', hr', rfl⟩ := resolveAncestors_error h
        exact ⟨r', List.mem_cons_of_mem _ hr', rfl⟩
      · cases founds <;> cases h

theorem verifyTimestampsStep_error {ds : DagState}
    {acc : AList (fun _ : BlockRef => VerifiedBlock) × Finset BlockRef} {b : VerifiedBlock} {p : Panic}
    (h : verifyTimestampsStep checkAncestors ds acc b = .error p) :
    (∃ r, p = .unsuspendedMissingAncestor b.reference r) ∨
      ∃ ancestorBlocks, checkAncestors b ancestorBlocks ds.gcEnabled ds.gcRound = .error p := by
  obtain ⟨toAccept, toReject⟩ := acc
  rw [verifyTimestampsStep, except_bind_eq_error] at h
  rcases h with h | ⟨resolved, -, h⟩
  · obtain ⟨r, -, rfl⟩ := resolveAncestors_error h
    exact .inl ⟨r, rfl⟩
  cases resolved with
  | none => cases h
  | some ancestorBlocks =>
    rw [except_bind_eq_error] at h
    rcases h with h | ⟨verdict, -, h⟩
    · exact .inr ⟨ancestorBlocks, h⟩
    · cases verdict <;> cases h

theorem verifyBlockTimestampsAndAccept_error_of {P : Panic → Prop}
    (hmissing : ∀ b r, P (.unsuspendedMissingAncestor b r)) (hcheck : ∀ b a g r p, checkAncestors b a g r = .error p → P p)
    (haccept : ∀ r, P .genesisAccepted ∧ P (.blockTimestampInFuture r) ∧ P (.ownSlotOccupied r))
    {bm : BlockManager} {l : List VerifiedBlock} {p : Panic}
    (h : bm.verifyBlockTimestampsAndAccept checkAncestors l = .error p) : P p := by
  rw [verifyBlockTimestampsAndAccept, except_bind_eq_error] at h
  rcases h with h | ⟨⟨toAccept, toReject⟩, -, h⟩
  · obtain ⟨acc, b, -, -, hstep⟩ := foldlM_except_error (P := fun _ => True) trivial (fun _ _ _ _ _ _ => trivial) h
    rcases verifyTimestampsStep_error checkAncestors hstep with ⟨r, rfl⟩ | ⟨ancestorBlocks, hc⟩
    · exact hmissing _ r
    · exact hcheck _ _ _ _ _ hc
  · rw [except_bind_eq_error] at h
    rcases h with h | ⟨ds, -, h⟩
    · obtain ⟨b, -, rfl | rfl | rfl⟩ := DagState.acceptBlocks_error h
      · exact (haccept b.reference).1
      · exact (haccept b.reference).2.1
      · exact (haccept b.reference).2.2
    · cases h

theorem verifyBlockTimestampsAndAccept_error
    (hcheck : ∀ b a g r p, checkAncestors b a g r = .error p → p.fromTryUnsuspendBlock = false)
    {bm : BlockManager} {l : List VerifiedBlock} {p : Panic}
    (h : bm.verifyBlockTimestampsAndAccept checkAncestors l = .error p) : p.fromTryUnsuspendBlock = false :=
  verifyBlockTimestampsAndAccept_error_of checkAncestors (fun _ _ => rfl) hcheck (fun _ => ⟨rfl, rfl, rfl⟩) h

theorem tryUnsuspendChildrenBlocks_ne_error {bm : BlockManager} {start : BlockRef} {p : Panic}
    (hi : bm.IndexedUpTo fun _ _ => False)
    (hunheld : ∀ c m, bm.Waits c m → bm.dagState.containsBlock m = false ∨ m = start)
    (hsus : start ∉ bm.suspendedBlocks) (hmb : start ∉ bm.missingBlocks) :
    bm.tryUnsuspendChildrenBlocks start ≠ .error p := by
  obtain ⟨bm', unsuspended, hok, -⟩ :=
    tryUnsuspendChildrenBlocks_cascade (Q := fun _ => True) hi hunheld hsus hmb (fun _ _ _ _ _ => .inl trivial)
  rw [hok]
  intro h
  cases h

theorem tryAcceptOneCommittedBlock_error {bm : BlockManager} {block : VerifiedBlock} {p : Panic}
    (h : bm.tryAcceptOneCommittedBlock block = .error p) :
    ∃ b ∈ [block], p = .genesisAccepted ∨ p = .blockTimestampInFuture b.reference ∨ p = .ownSlotOccupied b.reference := by
  unfold BlockManager.tryAcceptOneCommittedBlock at h
  dsimp only at h
  split_ifs at h
  generalize hds : DagState.acceptBlocks _ [block] = res at h
  cases res with
  | error e =>
    cases h
    exact DagState.acceptBlocks_error hds
  | ok ds => cases h

variable (hcheck : ∀ b a g r p, checkAncestors b a g r = .error p → p.fromTryUnsuspendBlock = false)
include hcheck

theorem acceptStep_error {committed : Bool} {acc : BlockManager × List VerifiedBlock × Finset BlockRef}
    {block : VerifiedBlock} {p : Panic} (hi : acc.1.Indexed)
    (h : acceptStep checkAncestors committed acc block = .error p) : p.fromTryUnsuspendBlock = false := by
  obtain ⟨bm, accepted, missing⟩ := acc
  cases committed with
  | false =>
    simp only [BlockManager.acceptStep, Bool.false_eq_true, ↓reduceIte] at h
    rw [except_bind_eq_error] at h
    rcases h with h | ⟨⟨bm₁, result⟩, hres, h⟩
    · cases h
    rw [Except.ok.injEq] at hres
    cases result with
    | accepted b =>
      obtain ⟨rfl, rfl, hsus, -, -⟩ := tryAcceptOneBlock_eq_accepted hres
      rw [except_bind_eq_error] at h
      rcases h with h | ⟨⟨bm₂, unsuspended⟩, -, h⟩
      · exact absurd h (tryUnsuspendChildrenBlocks_ne_error (hi.eraseMissingBlock _).toIndexedUpTo
          (fun c m hw => .inl (hi.waits_not_held c m hw)) hsus (by simp))
      rw [except_bind_eq_error] at h
      rcases h with h | ⟨_, -, h⟩
      · exact verifyBlockTimestampsAndAccept_error checkAncestors hcheck h
      · cases h
    | suspended _ => cases h
    | processed => cases h
    | skipped => cases h
  | true =>
    simp only [BlockManager.acceptStep, ↓reduceIte] at h
    rw [except_bind_eq_error] at h
    rcases h with h | ⟨⟨bm₁, result⟩, hres, h⟩
    · obtain ⟨b, -, rfl | rfl | rfl⟩ := tryAcceptOneCommittedBlock_error h <;> rfl
    rcases hi.tryAcceptOneCommittedBlock hres with ⟨rfl, -⟩ | ⟨rfl, hidx, hunheld, hsus, hmb⟩
    · cases h
    rw [except_bind_eq_error] at h
    rcases h with h | ⟨⟨bm₂, unsuspended⟩, -, h⟩
    · exact absurd h (tryUnsuspendChildrenBlocks_ne_error hidx hunheld hsus hmb)
    rw [except_bind_eq_error] at h
    rcases h with h | ⟨_, -, h⟩
    · exact verifyBlockTimestampsAndAccept_error checkAncestors hcheck h
    · cases h

theorem tryAcceptBlocksInternal_error {bm : BlockManager} {blocks : List VerifiedBlock} {committed : Bool}
    {p : Panic} (hi : bm.Indexed) (h : bm.tryAcceptBlocksInternal checkAncestors blocks committed = .error p) :
    p.fromTryUnsuspendBlock = false := by
  obtain ⟨acc, block, -, hacc, hstep⟩ := foldlM_except_error (P := fun acc => acc.1.Indexed) hi
    (fun _ _ _ _ hacc hstep => hacc.acceptStep checkAncestors hstep) h
  exact acceptStep_error checkAncestors hcheck hacc hstep

theorem tryAcceptCommittedBlocks_error {bm : BlockManager} {blocks : List VerifiedBlock} {p : Panic}
    (hi : bm.Indexed) (h : bm.tryAcceptCommittedBlocks checkAncestors blocks = .error p) :
    p.fromTryUnsuspendBlock = false := by
  unfold BlockManager.tryAcceptCommittedBlocks at h
  split_ifs at h
  rw [except_bind_eq_error] at h
  rcases h with h | ⟨⟨bm₁, accepted, missing⟩, -, h⟩
  · exact tryAcceptBlocksInternal_error checkAncestors hcheck hi h
  · dsimp only at h
    split_ifs at h
    cases h
    rfl

theorem unsuspendBelowGcRoundLoop_error {gcRound : ℕ} {p : Panic} :
    ∀ {n : ℕ} {bm : BlockManager}, bm.Indexed →
      unsuspendBelowGcRoundLoop checkAncestors gcRound n bm = .error p → p.fromTryUnsuspendBlock = false
  | 0, _, _, h => by cases h
  | n + 1, bm, hi, h => by
    unfold BlockManager.unsuspendBelowGcRoundLoop at h
    split at h
    · cases h
    · rename_i r _
      split_ifs at h with hround hsus
      · cases h
        rfl
      rw [except_bind_eq_error] at h
      rcases h with h | ⟨⟨bm₂, unsuspended⟩, hunsuspend, h⟩
      · exact absurd h (tryUnsuspendChildrenBlocks_ne_error (hi.eraseMissingBlock r).toIndexedUpTo
          (fun c m hw => .inl (hi.waits_not_held c m hw)) hsus (by simp))
      rw [except_bind_eq_error] at h
      rcases h with h | ⟨⟨bm₃, verified⟩, hverify, h⟩
      · exact verifyBlockTimestampsAndAccept_error checkAncestors hcheck h
      have hi₃ : bm₃.Indexed :=
        @indexed_of_unsuspend_verify checkAncestors _ _ _ _ [] _ _ (hi.eraseMissingBlock r).toIndexedUpTo
          (fun c m hw => .inl (hi.waits_not_held c m hw)) hsus (by simp) (by simp) hunsuspend
          (by rwa [List.nil_append])
      exact unsuspendBelowGcRoundLoop_error hi₃ h

theorem tryUnsuspendBlocksForLatestGcRound_error {bm : BlockManager} {p : Panic} (hi : bm.Indexed)
    (h : bm.tryUnsuspendBlocksForLatestGcRound checkAncestors = .error p) : p.fromTryUnsuspendBlock = false := by
  unfold BlockManager.tryUnsuspendBlocksForLatestGcRound at h
  split_ifs at h
  exact unsuspendBelowGcRoundLoop_error checkAncestors hcheck hi h

end Panics

theorem Indexed.congr_dagState {bm : BlockManager} {ds : DagState} (hi : bm.Indexed)
    (hd : ∀ r, ds.containsBlock r = bm.dagState.containsBlock r) : ({ bm with dagState := ds } : BlockManager).Indexed :=
  { hi.toIndexedUpTo with
    waits_not_held := fun c m hw => (hd m).trans (hi.waits_not_held c m hw)
    missingBlocks_not_held := fun m hm => (hd m).trans (hi.missingBlocks_not_held m hm) }

/-! ### Runs

Any sequence of the calls the block manager serves, from `BlockManager::new`,
with commits in between that move the commit round, and so the GC round,
forward. -/

/-- The entry points of `BlockManager`, and the commits of the rest of the node. -/
inductive Op
  | tryAcceptBlocks (blocks : List VerifiedBlock)
  | tryFindBlocks (blockRefs : List BlockRef)
  | tryAcceptCommittedBlocks (blocks : List VerifiedBlock)
  | tryUnsuspendBlocksForLatestGcRound
  | commit (commitRound : ℕ)

section Runs

variable (checkAncestors :
  VerifiedBlock → List (Option VerifiedBlock) → Bool → ℕ → Except Panic (Except ConsensusError Unit))

/-- A commit never moves the commit round back. -/
def Op.run : Op → BlockManager → Except Panic BlockManager
  | .tryAcceptBlocks blocks, bm => (·.1) <$> bm.tryAcceptBlocks checkAncestors blocks
  | .tryFindBlocks blockRefs, bm => .ok (bm.tryFindBlocks blockRefs).1
  | .tryAcceptCommittedBlocks blocks, bm => (·.1) <$> bm.tryAcceptCommittedBlocks checkAncestors blocks
  | .tryUnsuspendBlocksForLatestGcRound, bm => bm.tryUnsuspendBlocksForLatestGcRound checkAncestors
  | .commit commitRound, bm =>
    .ok { bm with dagState := { bm.dagState with
      lastCommitRound := max bm.dagState.lastCommitRound commitRound } }

def runOps (ops : List Op) (bm : BlockManager) : Except Panic BlockManager :=
  ops.foldlM (fun bm op => op.run checkAncestors bm) bm

theorem Indexed.run {bm bm' : BlockManager} {op : Op} (hi : bm.Indexed)
    (h : op.run checkAncestors bm = .ok bm') : bm'.Indexed := by
  cases op with
  | tryAcceptBlocks blocks =>
    rw [Op.run, except_map_eq_ok] at h
    obtain ⟨⟨bm₁, accepted, missing⟩, h₁, rfl⟩ := h
    exact hi.tryAcceptBlocksInternal checkAncestors h₁
  | tryFindBlocks blockRefs =>
    cases h
    exact hi.tryFindBlocks blockRefs
  | tryAcceptCommittedBlocks blocks =>
    rw [Op.run, except_map_eq_ok] at h
    obtain ⟨⟨bm₁, accepted⟩, h₁, rfl⟩ := h
    exact hi.tryAcceptCommittedBlocks checkAncestors h₁
  | tryUnsuspendBlocksForLatestGcRound => exact hi.tryUnsuspendBlocksForLatestGcRound checkAncestors h
  | commit commitRound =>
    -- the invariant does not read the commit round
    cases h
    exact hi.congr_dagState fun _ => rfl

theorem Indexed.runOps {bm bm' : BlockManager} {ops : List Op} (hi : bm.Indexed)
    (h : runOps checkAncestors ops bm = .ok bm') : bm'.Indexed :=
  foldlM_except_induction (P := Indexed) hi (fun _ _ _ _ hacc hstep => hacc.run checkAncestors hstep) h

theorem run_error (hcheck : ∀ b a g r p, checkAncestors b a g r = .error p → p.fromTryUnsuspendBlock = false)
    {bm : BlockManager} {op : Op} {p : Panic} (hi : bm.Indexed) (h : op.run checkAncestors bm = .error p) :
    p.fromTryUnsuspendBlock = false := by
  cases op with
  | tryAcceptBlocks blocks =>
    rw [Op.run, except_map_eq_error] at h
    exact tryAcceptBlocksInternal_error checkAncestors hcheck hi h
  | tryFindBlocks blockRefs => cases h
  | tryAcceptCommittedBlocks blocks =>
    rw [Op.run, except_map_eq_error] at h
    exact tryAcceptCommittedBlocks_error checkAncestors hcheck hi h
  | tryUnsuspendBlocksForLatestGcRound => exact tryUnsuspendBlocksForLatestGcRound_error checkAncestors hcheck hi h
  | commit commitRound => cases h

/-- In every state a run reaches, `missing_ancestors` indexes exactly what the
suspended blocks still miss, none of which is held, and `missing_blocks`
lists only indexed references neither suspended nor held; from such a state
no call raises a panic of `try_unsuspend_block`, whatever the verifier does
short of raising one itself. -/
theorem runOps_indexed
    (hcheck : ∀ b a g r p, checkAncestors b a g r = .error p → p.fromTryUnsuspendBlock = false)
    {ds : DagState} {ops : List Op} {bm : BlockManager} (h : runOps checkAncestors ops (new ds) = .ok bm) :
    (∀ c s m, bm.suspendedBlocks.lookup c = some s → m ∈ s.missingAncestors →
        bm.Listed m c ∧ bm.dagState.containsBlock m = false) ∧
      (∀ m c, bm.Listed m c → bm.Waits c m) ∧
      (∀ m ∈ bm.missingBlocks, m ∈ bm.missingAncestors ∧ m ∉ bm.suspendedBlocks ∧
        bm.dagState.containsBlock m = false) ∧
      ∀ (op : Op) (p : Panic), op.run checkAncestors bm = .error p → p.fromTryUnsuspendBlock = false := by
  have hi : bm.Indexed := (indexed_new ds).runOps checkAncestors h
  refine ⟨fun c s m hs hm => ?_, fun m c hl => hi.waits_iff_listed.mpr hl, fun m hm => ?_,
    fun op p hp => run_error checkAncestors hcheck hi hp⟩
  · have hw : bm.Waits c m := ⟨s, hs, hm⟩
    exact ⟨hi.waits_iff_listed.mp hw, hi.waits_not_held c m hw⟩
  · exact ⟨hi.missingBlocks_listed m hm, hi.missingBlocks_not_suspended m hm, hi.missingBlocks_not_held m hm⟩

end Runs

/-- `R` arrives before its ancestors and is suspended; they arrive in the next
call and release it. -/
theorem runOps_indexed_trap :
    ∃ bm, runOps SignedBlockVerifier.checkAncestors
        [.tryAcceptBlocks [trapR], .tryAcceptBlocks [trapA0, trapA1, trapA2, trapA3]] (new trapDagState) = .ok bm ∧
      ((∀ c s m, bm.suspendedBlocks.lookup c = some s → m ∈ s.missingAncestors →
          bm.Listed m c ∧ bm.dagState.containsBlock m = false) ∧
        (∀ m c, bm.Listed m c → bm.Waits c m) ∧
        (∀ m ∈ bm.missingBlocks, m ∈ bm.missingAncestors ∧ m ∉ bm.suspendedBlocks ∧
          bm.dagState.containsBlock m = false) ∧
        ∀ (op : Op) (p : Panic), op.run SignedBlockVerifier.checkAncestors bm = .error p →
          p.fromTryUnsuspendBlock = false) := by
  have hcheck : ∀ b a g r p, SignedBlockVerifier.checkAncestors b a g r = .error p →
      p.fromTryUnsuspendBlock = false := fun _ _ _ _ _ hp => by
    rcases SignedBlockVerifier.checkAncestors_error hp with rfl | rfl <;> rfl
  have hok : (runOps SignedBlockVerifier.checkAncestors
      [.tryAcceptBlocks [trapR], .tryAcceptBlocks [trapA0, trapA1, trapA2, trapA3]] (new trapDagState)).toBool =
        true := by decide
  rcases h : runOps SignedBlockVerifier.checkAncestors
      [.tryAcceptBlocks [trapR], .tryAcceptBlocks [trapA0, trapA1, trapA2, trapA3]] (new trapDagState) with p | bm
  · rw [h] at hok
    contradiction
  · exact ⟨bm, rfl, runOps_indexed SignedBlockVerifier.checkAncestors hcheck h⟩

end BlockManager

end Iota.Consensus
