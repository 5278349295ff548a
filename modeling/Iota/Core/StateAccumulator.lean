import Iota.Core.Effects
import Iota.Lib.MultisetHash

/-! The root state hash (`iota-core/src/state_accumulator.rs`).  `accumulate_effects`
hashes a checkpoint's effects, adding the digest of every changed object and taking away
the digest of every input object; `accumulate_running_root` unites the checkpoints'
hashes from genesis; `accumulate_live_object_set` hashes the digests that
`iter_live_object_set` yields.  The running root is the hash of the live set when each
transaction's recorded inputs are the live state of its objects and its writes land above
the versions already stored: a write below them leaves the old version live in the table
while the running root has moved on.

The proof follows one id at a time.  A transaction writes at most one entry per id
(`writeOf`), above every stored version, so the live object of a changed id is what that
entry makes of it, and every other id keeps its live object; the change of the hash at
each id is then the digest added for it less the digest taken away. -/

namespace Iota.Core

open Iota.Lib

/-- `accumulate_effects`: the digests of the changed objects go in, those of the input
objects go out. -/
def accumulateEffects (effects : List TransactionEffectsV1) : MultisetHash ℕ :=
  (MultisetHash.empty.insertAll (effects.flatMap fun fx => fx.allChangedObjects.map (·.digest))).removeAll
    (effects.flatMap fun fx => fx.oldObjectMetadata.map (·.digest))

/-- `accumulate_running_root` from genesis on: the running root of the checkpoint before,
united with the checkpoint's hash.  The bootstrap from the previous epoch's root reads
back the root that this fold has reached there. -/
def accumulateRunningRoot (checkpoints : List (List TransactionEffectsV1)) : MultisetHash ℕ :=
  checkpoints.foldl (fun runningRoot effects => runningRoot.union (accumulateEffects effects)) MultisetHash.empty

/-- `accumulate_live_object_set_impl` over `iter_live_object_set`, which yields only
`LiveObject::Normal`. -/
def accumulateLiveObjectSet (objects : ObjectsTable) : MultisetHash ℕ :=
  MultisetHash.empty.insertAll ((iterLiveObjectSet objects).map (·.digest))

/-- The objects table after the transactions' outputs are written in turn. -/
def writeAll (objects : ObjectsTable) (effects : List TransactionEffectsV1) : ObjectsTable :=
  effects.foldl writeTransactionOutputs objects

/-- `P` holds of each transaction against the table it is written to. -/
def HoldsAlong (P : ObjectsTable → TransactionEffectsV1 → Prop) : ObjectsTable → List TransactionEffectsV1 → Prop
  | _, [] => True
  | objects, fx :: effects => P objects fx ∧ HoldsAlong P (writeTransactionOutputs objects fx) effects

/-- Every input state recorded is the object's live state: an existing input is the live
version, a missing one means the id has no live object. -/
def InputsLive (objects : ObjectsTable) (fx : TransactionEffectsV1) : Prop :=
  ∀ c ∈ fx.changedObjects, liveObject objects c.1 = oldObjectMetadataOf c

instance (objects : ObjectsTable) (fx : TransactionEffectsV1) : Decidable (InputsLive objects fx) := by
  unfold InputsLive
  infer_instance

/-- What the running root needs of a transaction against the table it is written to:
its inputs are live; the changed objects have distinct ids; an existing input is never
turned into nothing by a creation; and every entry written lies above every stored
version of its id, as a lamport version above the input versions does. -/
structure AppliesTo (objects : ObjectsTable) (fx : TransactionEffectsV1) : Prop where
  inputs_live : InputsLive objects fx
  nodup_ids : (fx.changedObjects.map (·.1)).Nodup
  not_created : ∀ c ∈ fx.changedObjects, c.2.inputState ≠ .notExist → c.2.outputState = .notExist →
    c.2.idOperation ≠ .created
  version_above : ∀ w ∈ objectWrites fx, ∀ key ∈ objects.keys, key.id = w.1.id → key.version < w.1.version

/-! ### The entry each change writes -/

/-- The one entry a change writes into the objects table, if any. -/
def writeOf (lamport : ℕ) : ℕ × EffectsObjectChange → Option (ObjectKey × StoreObject)
  | (id, ⟨.exist _ _, .objectWrite digest, _⟩) => some (⟨id, lamport⟩, .value digest)
  | (id, ⟨.exist _ _, .packageWrite version digest, _⟩) => some (⟨id, version⟩, .value digest)
  | (id, ⟨.exist _ _, .notExist, .deleted⟩) => some (⟨id, lamport⟩, .deleted)
  | (id, ⟨.exist _ _, .notExist, .none⟩) => some (⟨id, lamport⟩, .wrapped)
  | (id, ⟨.notExist, .objectWrite digest, .created⟩) => some (⟨id, lamport⟩, .value digest)
  | (id, ⟨.notExist, .objectWrite digest, .none⟩) => some (⟨id, lamport⟩, .value digest)
  | (id, ⟨.notExist, .packageWrite version digest, .created⟩) => some (⟨id, version⟩, .value digest)
  | (id, ⟨.notExist, .notExist, .deleted⟩) => some (⟨id, lamport⟩, .deleted)
  | _ => none

theorem writeOf_id {lamport : ℕ} {c : ℕ × EffectsObjectChange} {w : ObjectKey × StoreObject}
    (h : writeOf lamport c = some w) : w.1.id = c.1 := by
  obtain ⟨id, ⟨i, o, op⟩⟩ := c
  cases i <;> cases o <;> cases op <;> simp [writeOf] at h <;> rw [← h]

theorem mem_objectWrites {fx : TransactionEffectsV1} {w : ObjectKey × StoreObject} :
    w ∈ objectWrites fx ↔ ∃ c ∈ fx.changedObjects, writeOf fx.lamportVersion c = some w := by
  simp only [objectWrites, TransactionEffectsV1.deleted, TransactionEffectsV1.unwrappedThenDeleted,
    TransactionEffectsV1.wrapped, TransactionEffectsV1.allChangedObjects, TransactionEffectsV1.mutated,
    TransactionEffectsV1.created, TransactionEffectsV1.unwrapped, List.map_append, List.mem_append, List.mem_map,
    List.mem_filterMap]
  constructor
  · rintro (((⟨r, ⟨c, hc, hr⟩, rfl⟩ | ⟨r, ⟨c, hc, hr⟩, rfl⟩) | ⟨r, ⟨c, hc, hr⟩, rfl⟩) |
      (⟨r, ⟨c, hc, hr⟩, rfl⟩ | ⟨r, ⟨c, hc, hr⟩, rfl⟩) | ⟨r, ⟨c, hc, hr⟩, rfl⟩) <;>
    · refine ⟨c, hc, ?_⟩
      obtain ⟨id, ⟨i, o, op⟩⟩ := c
      cases i <;> cases o <;> cases op <;>
        simp [deletedOf, unwrappedThenDeletedOf, wrappedOf, mutatedOf, createdOf, unwrappedOf] at hr <;>
        subst hr <;> rfl
  · rintro ⟨c, hc, hw⟩
    obtain ⟨id, ⟨i, o, op⟩⟩ := c
    cases i <;> cases o <;> cases op <;> simp only [writeOf, Option.some.injEq, reduceCtorEq] at hw <;> subst hw
    -- the entry comes from the accessor that lists the change
    all_goals first
      | exact .inl (.inl (.inl ⟨_, ⟨_, hc, rfl⟩, rfl⟩))
      | exact .inl (.inl (.inr ⟨_, ⟨_, hc, rfl⟩, rfl⟩))
      | exact .inl (.inr ⟨_, ⟨_, hc, rfl⟩, rfl⟩)
      | exact .inr (.inl (.inl ⟨_, ⟨_, hc, rfl⟩, rfl⟩))
      | exact .inr (.inl (.inr ⟨_, ⟨_, hc, rfl⟩, rfl⟩))
      | exact .inr (.inr ⟨_, ⟨_, hc, rfl⟩, rfl⟩)

/-! ### Writing a list of entries -/

section Insert

variable {ws : List (ObjectKey × StoreObject)} {objects : ObjectsTable} {k : ObjectKey}

theorem lookup_foldl_insert_of_forall_ne :
    ∀ {ws : List (ObjectKey × StoreObject)} {objects : ObjectsTable}, (∀ w ∈ ws, w.1 ≠ k) →
      (ws.foldl (fun objects w => objects.insert w.1 w.2) objects).lookup k = objects.lookup k
  | [], _, _ => rfl
  | w :: ws, objects, h => by
    rw [List.foldl_cons, lookup_foldl_insert_of_forall_ne fun w' hw' => h w' (List.mem_cons_of_mem w hw'),
      AList.lookup_insert_ne (h w List.mem_cons_self).symm]

theorem lookup_foldl_insert_of_mem {v : StoreObject} :
    ∀ {ws : List (ObjectKey × StoreObject)} {objects : ObjectsTable}, (k, v) ∈ ws →
      (∀ w ∈ ws, w.1 = k → w.2 = v) →
      (ws.foldl (fun objects w => objects.insert w.1 w.2) objects).lookup k = some v
  | [], _, hmem, _ => absurd hmem List.not_mem_nil
  | w :: ws, objects, hmem, h => by
    rw [List.foldl_cons]
    by_cases hrest : (k, v) ∈ ws
    · exact lookup_foldl_insert_of_mem hrest fun w' hw' => h w' (List.mem_cons_of_mem w hw')
    · -- `w` is the entry, and the rest of the list writes other keys
      have hw : w = (k, v) := by
        rcases List.mem_cons.mp hmem with hw | hw
        · exact hw.symm
        · exact absurd hw hrest
      have hne : ∀ w' ∈ ws, w'.1 ≠ k := fun w' hw' hk =>
        hrest (by rw [← h w' (List.mem_cons_of_mem w hw') hk, ← hk]; exact hw')
      rw [lookup_foldl_insert_of_forall_ne hne, hw, AList.lookup_insert]

theorem lookup_foldl_insert_isSome :
    ∀ {ws : List (ObjectKey × StoreObject)} {objects : ObjectsTable},
      ((ws.foldl (fun objects w => objects.insert w.1 w.2) objects).lookup k).isSome →
        (objects.lookup k).isSome ∨ ∃ w ∈ ws, w.1 = k
  | [], _, h => .inl h
  | w :: ws, objects, h => by
    rw [List.foldl_cons] at h
    rcases lookup_foldl_insert_isSome h with h | ⟨w', hw', hk⟩
    · by_cases hk : w.1 = k
      · exact .inr ⟨w, List.mem_cons_self, hk⟩
      · rw [AList.lookup_insert_ne (Ne.symm hk)] at h
        exact .inl h
    · exact .inr ⟨w', List.mem_cons_of_mem w hw', hk⟩

end Insert

/-! ### The live object of each id after a transaction -/

section Write

variable {objects : ObjectsTable} {fx : TransactionEffectsV1}

theorem latest_congr {objects' : ObjectsTable} {id : ℕ}
    (h : ∀ key : ObjectKey, key.id = id → objects'.lookup key = objects.lookup key) :
    latest objects' id = latest objects id := by
  have hkeys : ∀ key : ObjectKey, key.id = id → (key ∈ objects'.keys ↔ key ∈ objects.keys) := fun key hkey => by
    rw [mem_keys_iff, mem_keys_iff, h key hkey]
  apply Option.ext
  intro entry
  rw [latest_eq_some_iff, latest_eq_some_iff]
  constructor
  · rintro ⟨hid, hlookup, hlast⟩
    exact ⟨hid, (h entry.1 hid) ▸ hlookup, fun key hkey hkid => hlast key ((hkeys key hkid).mpr hkey) hkid⟩
  · rintro ⟨hid, hlookup, hlast⟩
    exact ⟨hid, (h entry.1 hid).symm ▸ hlookup, fun key hkey hkid => hlast key ((hkeys key hkid).mp hkey) hkid⟩

theorem liveObject_write_of_forall_ne {id : ℕ} (h : ∀ w ∈ objectWrites fx, w.1.id ≠ id) :
    liveObject (writeTransactionOutputs objects fx) id = liveObject objects id := by
  rw [liveObject, liveObject, latest_congr]
  intro key hkey
  exact lookup_foldl_insert_of_forall_ne fun w hw hwk => h w hw (hwk ▸ hkey)

theorem eq_of_writeOf_id (happ : AppliesTo objects fx) {c c' : ℕ × EffectsObjectChange}
    (hc : c ∈ fx.changedObjects) (hc' : c' ∈ fx.changedObjects) {w : ObjectKey × StoreObject}
    (hw : writeOf fx.lamportVersion c' = some w) (hid : w.1.id = c.1) : c' = c :=
  List.inj_on_of_nodup_map happ.nodup_ids hc' hc ((writeOf_id hw).symm.trans hid)

theorem eq_of_mem_objectWrites (happ : AppliesTo objects fx) {c : ℕ × EffectsObjectChange}
    (hc : c ∈ fx.changedObjects) {w w' : ObjectKey × StoreObject} (hw : writeOf fx.lamportVersion c = some w)
    (hw' : w' ∈ objectWrites fx) (hid : w'.1.id = c.1) : w' = w := by
  obtain ⟨c', hc', hw''⟩ := Iff.mp mem_objectWrites hw'
  rw [eq_of_writeOf_id happ hc hc' hw'' hid, hw] at hw''
  exact (Option.some_inj.mp hw'').symm

theorem latest_write_of_writeOf (happ : AppliesTo objects fx) {c : ℕ × EffectsObjectChange}
    (hc : c ∈ fx.changedObjects) {w : ObjectKey × StoreObject} (hw : writeOf fx.lamportVersion c = some w) :
    latest (writeTransactionOutputs objects fx) c.1 = some w := by
  have hmem : w ∈ objectWrites fx := Iff.mpr mem_objectWrites ⟨c, hc, hw⟩
  have hid := writeOf_id hw
  have hlookup : (writeTransactionOutputs objects fx).lookup w.1 = some w.2 :=
    lookup_foldl_insert_of_mem hmem fun w' hw' hk =>
      by rw [eq_of_mem_objectWrites happ hc hw hw' (by rw [hk, hid])]
  refine latest_eq_some_iff.mpr ⟨hid, hlookup, fun key hkey hkid => ?_⟩
  rcases lookup_foldl_insert_isSome (AList.lookup_isSome.mpr (AList.mem_keys.mpr hkey)) with hold | ⟨w', hw', hk⟩
  · -- a stored version lies below the one written
    have hlt := happ.version_above w hmem key (AList.mem_keys.mp (AList.lookup_isSome.mp hold)) (hkid.trans hid.symm)
    exact ObjectKey.le_iff.mpr (.inr ⟨hkid.trans hid.symm, hlt.le⟩)
  · rw [← hk, eq_of_mem_objectWrites happ hc hw hw' (by rw [hk, hkid])]

theorem liveObject_write (happ : AppliesTo objects fx) {c : ℕ × EffectsObjectChange} (hc : c ∈ fx.changedObjects) :
    liveObject (writeTransactionOutputs objects fx) c.1 =
      match writeOf fx.lamportVersion c with
      | some w => toLiveObject w
      | none => liveObject objects c.1 := by
  cases hw : writeOf fx.lamportVersion c with
  | some w => rw [liveObject, latest_write_of_writeOf happ hc hw]; rfl
  | none =>
    refine liveObject_write_of_forall_ne fun w hw' hid => ?_
    obtain ⟨c', hc', hwc⟩ := Iff.mp mem_objectWrites hw'
    rw [eq_of_writeOf_id happ hc hc' hwc hid, hw] at hwc
    exact absurd hwc (by simp)

theorem writeOf_id_mem {w : ObjectKey × StoreObject} (hw : w ∈ objectWrites fx) :
    w.1.id ∈ fx.changedObjects.map (·.1) := by
  obtain ⟨c, hc, hwc⟩ := Iff.mp mem_objectWrites hw
  rw [writeOf_id hwc]
  exact List.mem_map_of_mem hc

end Write

/-! ### Counting digests -/

/-- How many times `x` is the digest of an object reference that may be missing. -/
def digestCount (x : ℕ) : Option ObjectRef → ℤ
  | some r => if x = r.digest then 1 else 0
  | none => 0

theorem count_map_digest_filterMap {β : Type*} (x : ℕ) (g : β → Option ObjectRef) :
    ∀ l : List β, ((((l.filterMap g).map (·.digest)).count x : ℕ) : ℤ) = (l.map fun b => digestCount x (g b)).sum
  | [] => rfl
  | b :: l => by
    have ih := count_map_digest_filterMap x g l
    rw [List.filterMap_cons, List.map_cons, List.sum_cons, ← ih]
    cases g b with
    | none => simp [digestCount]
    | some r => rw [List.map_cons, MultisetHash.count_cons_eq]; rfl

theorem count_accumulateLiveObjectSet (objects : ObjectsTable) (x : ℕ) :
    (accumulateLiveObjectSet objects).count x = ∑ id ∈ objectIds objects, digestCount x (liveObject objects id) := by
  rw [accumulateLiveObjectSet, MultisetHash.count_insertAll, MultisetHash.count_empty, zero_add,
    iterLiveObjectSet_eq, count_map_digest_filterMap, sum_lastOfRuns_entries]
  refine Finset.sum_congr rfl fun id _ => ?_
  rw [liveObject]
  cases latest objects id <;> rfl

theorem sum_liveObject_of_subset {objects : ObjectsTable} {S : Finset ℕ} (hS : objectIds objects ⊆ S) (x : ℕ) :
    ∑ id ∈ objectIds objects, digestCount x (liveObject objects id) = ∑ id ∈ S, digestCount x (liveObject objects id) := by
  refine Finset.sum_subset hS fun id _ hid => ?_
  have hnone : latest objects id = none := latest_eq_none_iff.mpr fun key hkey hkid =>
    hid (Finset.mem_image.mpr ⟨key, List.mem_toFinset.mpr hkey, hkid⟩)
  rw [liveObject, hnone]
  rfl

@[simp] theorem accumulateLiveObjectSet_empty : accumulateLiveObjectSet ∅ = MultisetHash.empty := by
  ext x
  rw [count_accumulateLiveObjectSet]
  simp [objectIds]

/-- What a change adds to the checkpoint hash: the digest of its mutated, created or
unwrapped output. -/
def changedCount (x lamport : ℕ) (c : ℕ × EffectsObjectChange) : ℤ :=
  digestCount x (mutatedOf lamport c) + digestCount x (createdOf lamport c) + digestCount x (unwrappedOf lamport c)

theorem count_accumulateEffects_singleton (fx : TransactionEffectsV1) (x : ℕ) :
    (accumulateEffects [fx]).count x =
      (fx.changedObjects.map fun c => changedCount x fx.lamportVersion c - digestCount x (oldObjectMetadataOf c)).sum := by
  simp only [accumulateEffects, List.flatMap_cons, List.flatMap_nil, List.append_nil,
    MultisetHash.count_removeAll, MultisetHash.count_insertAll, MultisetHash.count_empty, zero_add,
    TransactionEffectsV1.allChangedObjects, TransactionEffectsV1.mutated, TransactionEffectsV1.created,
    TransactionEffectsV1.unwrapped, TransactionEffectsV1.oldObjectMetadata, List.map_append, List.count_append]
  push_cast
  rw [count_map_digest_filterMap, count_map_digest_filterMap, count_map_digest_filterMap,
    count_map_digest_filterMap]
  have hsub := Multiset.sum_map_sub (m := (fx.changedObjects : Multiset (ℕ × EffectsObjectChange)))
    (f := fun c => changedCount x fx.lamportVersion c) (g := fun c => digestCount x (oldObjectMetadataOf c))
  simp only [Multiset.map_coe, Multiset.sum_coe] at hsub
  rw [hsub]
  simp only [changedCount, List.sum_map_add]

section Delta

variable {objects : ObjectsTable} {fx : TransactionEffectsV1}

theorem digestCount_liveObject_write (happ : AppliesTo objects fx) {c : ℕ × EffectsObjectChange}
    (hc : c ∈ fx.changedObjects) (x : ℕ) :
    digestCount x (liveObject (writeTransactionOutputs objects fx) c.1) =
      digestCount x (liveObject objects c.1) + changedCount x fx.lamportVersion c - digestCount x (oldObjectMetadataOf c) := by
  rw [liveObject_write happ hc, happ.inputs_live c hc]
  have hcreated := happ.not_created c hc
  obtain ⟨id, ⟨i, o, op⟩⟩ := c
  cases i <;> cases o <;> cases op <;>
    simp [writeOf, toLiveObject, digestCount, changedCount, mutatedOf, createdOf, unwrappedOf, oldObjectMetadataOf]
      at hcreated ⊢

theorem accumulateLiveObjectSet_write (happ : AppliesTo objects fx) :
    accumulateLiveObjectSet (writeTransactionOutputs objects fx) =
      (accumulateLiveObjectSet objects).union (accumulateEffects [fx]) := by
  ext x
  set changedIds := (fx.changedObjects.map (·.1)).toFinset
  set S := objectIds objects ∪ objectIds (writeTransactionOutputs objects fx) ∪ changedIds
  have hchanged : changedIds ⊆ S := Finset.subset_union_right
  -- ids no change names keep their live object
  have hsame : ∀ id ∈ S, id ∉ changedIds →
      digestCount x (liveObject (writeTransactionOutputs objects fx) id) -
        digestCount x (liveObject objects id) = 0 := by
    intro id _ hid
    have hwrites : ∀ w ∈ objectWrites fx, w.1.id ≠ id := fun w hw hwid =>
      hid (List.mem_toFinset.mpr (hwid ▸ writeOf_id_mem hw))
    rw [liveObject_write_of_forall_ne hwrites, sub_self]
  rw [MultisetHash.count_union, count_accumulateLiveObjectSet, count_accumulateLiveObjectSet,
    sum_liveObject_of_subset (S := S) (by intro id h; simp [S, h]) x,
    sum_liveObject_of_subset (S := S) (by intro id h; simp [S, h]) x, count_accumulateEffects_singleton]
  calc ∑ id ∈ S, digestCount x (liveObject (writeTransactionOutputs objects fx) id)
      = ∑ id ∈ S, digestCount x (liveObject objects id) +
          ∑ id ∈ S, (digestCount x (liveObject (writeTransactionOutputs objects fx) id) -
            digestCount x (liveObject objects id)) := by
        rw [Finset.sum_sub_distrib, add_sub_cancel]
    _ = ∑ id ∈ S, digestCount x (liveObject objects id) +
          ∑ id ∈ changedIds, (digestCount x (liveObject (writeTransactionOutputs objects fx) id) -
            digestCount x (liveObject objects id)) := by
        rw [Finset.sum_subset hchanged hsame]
    _ = ∑ id ∈ S, digestCount x (liveObject objects id) +
          (fx.changedObjects.map fun c =>
            changedCount x fx.lamportVersion c - digestCount x (oldObjectMetadataOf c)).sum := by
        -- the changed ids are distinct, so the sum over them is the sum over the changes
        rw [List.sum_toFinset _ happ.nodup_ids, List.map_map]
        congr 1
        refine congrArg List.sum (List.map_congr_left fun c hc => ?_)
        simp only [Function.comp_apply, digestCount_liveObject_write happ hc]
        omega

end Delta

/-! ### Whole histories -/

theorem accumulateEffects_append (effects effects' : List TransactionEffectsV1) :
    accumulateEffects (effects ++ effects') = (accumulateEffects effects).union (accumulateEffects effects') := by
  ext x
  simp only [accumulateEffects, List.flatMap_append, MultisetHash.count_removeAll, MultisetHash.count_insertAll,
    MultisetHash.count_empty, MultisetHash.count_union, List.count_append]
  omega

@[simp] theorem accumulateEffects_nil : accumulateEffects [] = MultisetHash.empty := rfl

theorem accumulateLiveObjectSet_writeAll :
    ∀ {objects : ObjectsTable} {effects : List TransactionEffectsV1}, HoldsAlong AppliesTo objects effects →
      accumulateLiveObjectSet (writeAll objects effects) = (accumulateLiveObjectSet objects).union (accumulateEffects effects)
  | objects, [], _ => by rw [writeAll, List.foldl_nil, accumulateEffects_nil, MultisetHash.union_empty]
  | objects, fx :: effects, ⟨happ, hrest⟩ => by
    rw [writeAll, List.foldl_cons, ← writeAll, accumulateLiveObjectSet_writeAll hrest, accumulateLiveObjectSet_write happ,
      MultisetHash.union_assoc, ← accumulateEffects_append, List.singleton_append]

theorem foldl_union_accumulateEffects :
    ∀ (root : MultisetHash ℕ) (checkpoints : List (List TransactionEffectsV1)),
      checkpoints.foldl (fun runningRoot effects => runningRoot.union (accumulateEffects effects)) root =
        root.union (accumulateEffects checkpoints.flatten)
  | root, [] => by rw [List.foldl_nil, List.flatten_nil, accumulateEffects_nil, MultisetHash.union_empty]
  | root, effects :: checkpoints => by
    rw [List.foldl_cons, foldl_union_accumulateEffects, List.flatten_cons, accumulateEffects_append,
      MultisetHash.union_assoc]

theorem accumulateRunningRoot_eq_liveObjectSet (checkpoints : List (List TransactionEffectsV1))
    (happ : HoldsAlong AppliesTo ∅ checkpoints.flatten) :
    accumulateRunningRoot checkpoints = accumulateLiveObjectSet (writeAll ∅ checkpoints.flatten) := by
  rw [accumulateRunningRoot, foldl_union_accumulateEffects, accumulateLiveObjectSet_writeAll happ,
    accumulateLiveObjectSet_empty]

/-- Object 1 created at version 5 with digest 7, then mutated to digest 8 at the lamport
version given. -/
def objectHistory (lamport : ℕ) : List (List TransactionEffectsV1) :=
  [[⟨[(1, ⟨.notExist, .objectWrite 7, .created⟩)], 5⟩], [⟨[(1, ⟨.exist 5 7, .objectWrite 8, .none⟩)], lamport⟩]]

theorem accumulateRunningRoot_eq_liveObjectSet_mutated :
    HoldsAlong AppliesTo ∅ (objectHistory 6).flatten ∧
      accumulateRunningRoot (objectHistory 6) = accumulateLiveObjectSet (writeAll ∅ (objectHistory 6).flatten) := by
  have happ : HoldsAlong AppliesTo ∅ (objectHistory 6).flatten := by
    refine ⟨⟨?_, ?_, ?_, ?_⟩, ⟨?_, ?_, ?_, ?_⟩, trivial⟩ <;> decide
  exact ⟨happ, accumulateRunningRoot_eq_liveObjectSet _ happ⟩

end Iota.Core
