import Mathlib
import Iota.Execution.Gas
import Iota.Lib.Ascending

/-! The part of the temporary store
(`iota-execution/latest/iota-adapter/src/temporary_store.rs`) that gas charging
reads and writes: the input objects, the objects execution wrote and
modified, the collection of storage costs and rebates, and the check that the
storage rebates are conserved.

A `BTreeMap` keyed by object id is the set of its keys with the object under
each, and a `BTreeSet` a finite set; loops run over them in ascending order.
Of the metadata of an object's previous version only its storage rebate is
read here. -/

namespace Iota.Execution

open Iota.Core Iota.Lib

/-- A `BTreeMap<ObjectID, Object>`: each object is held under its own id. -/
structure ObjectMap where
  ids : Finset ℕ
  get : ℕ → Object
  get_id : ∀ id ∈ ids, (get id).id = id

namespace ObjectMap

variable (m : ObjectMap)

def get? (id : ℕ) : Option Object := if id ∈ m.ids then some (m.get id) else none

def insert (object : Object) : ObjectMap where
  ids := Insert.insert object.id m.ids
  get := Function.update m.get object.id object
  get_id id h := by
    by_cases hid : id = object.id
    · subst hid
      simp
    · rw [Function.update_of_ne hid]
      exact m.get_id id ((Finset.mem_insert.mp h).resolve_left hid)

def clear : ObjectMap := ⟨∅, m.get, by simp⟩

@[simp] theorem get?_eq_some {id : ℕ} {o : Object} : m.get? id = some o ↔ id ∈ m.ids ∧ m.get id = o := by
  unfold get?
  split_ifs with h <;> simp [h]

/-- Write a new storage rebate into the object under an id, as the
`values_mut` loop of `collect_storage_and_rebate` does. -/
def setStorageRebate (id storageRebate : ℕ) : ObjectMap where
  ids := m.ids
  get := Function.update m.get id { m.get id with storageRebate }
  get_id k h := by
    by_cases hk : k = id
    · subst hk
      simp [m.get_id k h]
    · rw [Function.update_of_ne hk]
      exact m.get_id k h

end ObjectMap

structure TemporaryStore where
  inputObjects : ObjectMap
  /-- The ids of `mutable_input_refs`; the versions, digests and owners under
  them are not read here. -/
  mutableInputRefs : Finset ℕ
  /-- The storage rebate in the metadata of each object loaded at runtime. -/
  loadedRuntimeObjects : ℕ → Option ℕ
  /-- The storage rebate of the system package the backing store holds under
  an id. -/
  systemPackageStorageRebate : ℕ → Option ℕ
  writtenObjects : ObjectMap
  modifiedObjects : Finset ℕ
  /-- `TemporaryStore::new` takes the mutable inputs from the input objects. -/
  mutableInputRefs_subset : mutableInputRefs ⊆ inputObjects.ids

namespace TemporaryStore

variable (s : TemporaryStore)

def objects : ObjectMap := s.inputObjects

def mutateInputObject (object : Object) : TemporaryStore :=
  { s with modifiedObjects := insert object.id s.modifiedObjects, writtenObjects := s.writtenObjects.insert object }

def deleteInputObject (id : ℕ) : TemporaryStore :=
  { s with modifiedObjects := insert id s.modifiedObjects }

def dropWrites : TemporaryStore :=
  { s with writtenObjects := s.writtenObjects.clear, modifiedObjects := ∅ }

def readObject (id : ℕ) : Option Object := (s.writtenObjects.get? id).or (s.inputObjects.get? id)

/-- Every mutable input that execution left alone is written back as it was
read, so that its version is bumped. -/
def ensureActiveInputsMutated : TemporaryStore :=
  let toBeUpdated := ((ascending s.mutableInputRefs).filter (· ∉ s.modifiedObjects)).map s.inputObjects.get
  toBeUpdated.foldl mutateInputObject s

/-- The storage rebate of the version before the transaction of a modified
object: a mutable input, else an object loaded at runtime, else a system
package of the backing store, which must be there. -/
def getObjectModifiedAt (id : ℕ) : Except ChargePanic (Option ℕ) :=
  if id ∈ s.modifiedObjects then
    if id ∈ s.mutableInputRefs then pure (some (s.inputObjects.get id).storageRebate)
    else
      match s.loadedRuntimeObjects id with
      | some storageRebate => pure (some storageRebate)
      | none =>
        match s.systemPackageStorageRebate id with
        | some storageRebate => pure (some storageRebate)
        | none => throw .unwrapNone
  else pure none

/-- One round of `collect_rebate`: a modified object that is not written was
deleted, and its old rebate is tracked with no new cost. -/
def collectRebateStep (g : IotaGasStatus) (objectId : ℕ) : Except ChargePanic IotaGasStatus :=
  if objectId ∈ s.writtenObjects.ids then pure g
  else do
    match ← s.getObjectModifiedAt objectId with
    | some storageRebate => pure (g.trackStorageMutation objectId 0 storageRebate).1
    | none => throw .unwrapNone

def collectRebate (g : IotaGasStatus) : Except ChargePanic IotaGasStatus :=
  (ascending s.modifiedObjects).foldlM s.collectRebateStep g

/-- One round of the `values_mut` loop of `collect_storage_and_rebate`: track
the object's new size and old rebate, and write the new cost as its rebate. -/
def trackWritten (acc : ObjectMap × IotaGasStatus) (entry : ℕ × ℕ) : ObjectMap × IotaGasStatus :=
  let object := s.writtenObjects.get entry.1
  let tracked := acc.2.trackStorageMutation object.id object.size entry.2
  (acc.1.setStorageRebate entry.1 tracked.2, tracked.1)

def collectStorageAndRebate (g : IotaGasStatus) : Except ChargePanic (TemporaryStore × IotaGasStatus) := do
  let writtenIds := ascending s.writtenObjects.ids
  let oldStorageRebates ← writtenIds.mapM fun objectId => do
    pure ((← s.getObjectModifiedAt objectId).getD 0)
  let tracked := (writtenIds.zip oldStorageRebates).foldl s.trackWritten (s.writtenObjects, g)
  let s := { s with writtenObjects := tracked.1 }
  let g ← s.collectRebate tracked.2
  pure (s, g)

/-- Each modified object with the rebate of its old version and its new
version, then each object that was created. -/
def getModifiedObjects : Except ChargePanic (List (ℕ × Option ℕ × Option Object)) := do
  let modified ← (ascending s.modifiedObjects).mapM fun id => do
    pure (id, ← s.getObjectModifiedAt id, s.writtenObjects.get? id)
  pure (modified ++ ((ascending s.writtenObjects.ids).filter (· ∉ s.modifiedObjects)).map fun id =>
    (id, none, some (s.writtenObjects.get id)))

/-- The storage rebates of the inputs and of the outputs. -/
def rebateTotals (objects : List (ℕ × Option ℕ × Option Object)) : ℕ × ℕ :=
  objects.foldl (fun totals object =>
    (totals.1 + object.2.1.getD 0, totals.2 + (object.2.2.map Object.storageRebate).getD 0)) (0, 0)

/-- The rebates of the inputs go to the sender or the storage fund, and what
was charged for storage is in the rebates of the outputs; with no storage
charge, the inputs' rebates are the outputs' plus what was paid out. -/
def checkIotaConserved (gasSummary : GasCostSummary) : Except ChargePanic (Except ExecutionError Unit) := do
  let totals := rebateTotals (← s.getModifiedObjects)
  let totalInputRebate := totals.1
  let totalOutputRebate := totals.2
  if gasSummary.storageCost = 0 then
    if totalInputRebate ≠ totalOutputRebate + gasSummary.storageRebate + gasSummary.nonRefundableStorageFee then
      pure (.error (.conservationNoStorageCharges totalInputRebate totalOutputRebate))
    else pure (.ok ())
  else if totalInputRebate ≠ gasSummary.storageRebate + gasSummary.nonRefundableStorageFee then
    pure (.error (.conservationInputRebate totalInputRebate gasSummary.nonRefundableStorageFee))
  else if gasSummary.storageCost ≠ totalOutputRebate then
    pure (.error (.conservationStorageCost gasSummary.storageCost totalOutputRebate))
  else pure (.ok ())

/-! ### The rebates of the transaction's objects

The storage rebate of each modified object's version before the transaction,
and the totals that `check_iota_conserved` compares. -/

/-- What the store was loaded with, which gas charging never changes. -/
def inputs : ObjectMap × Finset ℕ × (ℕ → Option ℕ) × (ℕ → Option ℕ) :=
  (s.inputObjects, s.mutableInputRefs, s.loadedRuntimeObjects, s.systemPackageStorageRebate)

/-- The version before the transaction is recorded: it is a mutable input,
an object loaded at runtime, or a system package. -/
def HasMetadata (id : ℕ) : Prop :=
  id ∈ s.mutableInputRefs ∨ (s.loadedRuntimeObjects id).isSome ∨ (s.systemPackageStorageRebate id).isSome

/-- Every modified object is a mutable input, a loaded child object or a
system package, as `check_execution_results_consistency` asserts. -/
def ModifiedHaveMetadata : Prop := ∀ id ∈ s.modifiedObjects, s.HasMetadata id

def previousStorageRebate (id : ℕ) : ℕ :=
  if id ∈ s.mutableInputRefs then (s.inputObjects.get id).storageRebate
  else
    match s.loadedRuntimeObjects id with
    | some storageRebate => storageRebate
    | none => (s.systemPackageStorageRebate id).getD 0

def totalInputRebate : ℕ := ∑ id ∈ s.modifiedObjects, s.previousStorageRebate id

def totalOutputRebate : ℕ := ∑ id ∈ s.writtenObjects.ids, (s.writtenObjects.get id).storageRebate

variable {s}

@[simp] theorem inputs_mutateInputObject (o : Object) : (s.mutateInputObject o).inputs = s.inputs := rfl

@[simp] theorem inputObjects_mutateInputObject (o : Object) : (s.mutateInputObject o).inputObjects = s.inputObjects :=
  rfl

@[simp] theorem inputs_deleteInputObject (id : ℕ) : (s.deleteInputObject id).inputs = s.inputs := rfl

@[simp] theorem inputs_dropWrites : s.dropWrites.inputs = s.inputs := rfl

theorem inputObjects_eq_of_inputs {t : TemporaryStore} (h : t.inputs = s.inputs) :
    t.inputObjects = s.inputObjects :=
  congrArg Prod.fst h

theorem mutableInputRefs_eq_of_inputs {t : TemporaryStore} (h : t.inputs = s.inputs) :
    t.mutableInputRefs = s.mutableInputRefs :=
  congrArg (fun inputs => inputs.2.1) h

theorem hasMetadata_congr {t : TemporaryStore} (h : t.inputs = s.inputs) : t.HasMetadata = s.HasMetadata := by
  simp only [inputs, Prod.mk.injEq] at h
  obtain ⟨-, h₂, h₃, h₄⟩ := h
  funext id
  simp [HasMetadata, h₂, h₃, h₄]

theorem getObjectModifiedAt_eq (hknown : s.ModifiedHaveMetadata) (id : ℕ) :
    s.getObjectModifiedAt id =
      .ok (if id ∈ s.modifiedObjects then some (s.previousStorageRebate id) else none) := by
  unfold getObjectModifiedAt
  split_ifs with hmod hmut
  · simp [previousStorageRebate, hmut, pure, Except.pure]
  · cases hloaded : s.loadedRuntimeObjects id with
    | some r => simp [previousStorageRebate, hmut, hloaded, pure, Except.pure]
    | none =>
      have hpackage : (s.systemPackageStorageRebate id).isSome := by
        rcases hknown id hmod with h | h | h
        · exact absurd h hmut
        · simp [hloaded] at h
        · exact h
      obtain ⟨r, hr⟩ := Option.isSome_iff_exists.mp hpackage
      simp [previousStorageRebate, hmut, hloaded, hr, pure, Except.pure]
  · rfl

theorem foldl_add_pair {α : Type*} (f g : α → ℕ) :
    ∀ (l : List α) (a b : ℕ), l.foldl (fun totals x => (totals.1 + f x, totals.2 + g x)) (a, b) =
      (a + (l.map f).sum, b + (l.map g).sum)
  | [], _, _ => rfl
  | x :: l, a, b => by
    rw [List.foldl_cons, foldl_add_pair f g l, List.map_cons, List.map_cons, List.sum_cons, List.sum_cons]
    simp only [Nat.add_assoc]

theorem rebateTotals_eq (objects : List (ℕ × Option ℕ × Option Object)) :
    rebateTotals objects = ((objects.map fun o => o.2.1.getD 0).sum,
      (objects.map fun o => (o.2.2.map Object.storageRebate).getD 0).sum) := by
  unfold rebateTotals
  rw [foldl_add_pair]
  simp

theorem sum_outputs_eq_totalOutputRebate (s : TemporaryStore) :
    (((ascending s.modifiedObjects).map fun id =>
        ((s.writtenObjects.get? id).map Object.storageRebate).getD 0).sum +
      (((ascending s.writtenObjects.ids).filter (· ∉ s.modifiedObjects)).map fun id =>
        (s.writtenObjects.get id).storageRebate).sum) = s.totalOutputRebate := by
  rw [sum_map_ascending, sum_map_filter_ascending]
  have hmodified : ∀ id, ((s.writtenObjects.get? id).map Object.storageRebate).getD 0 =
      if id ∈ s.writtenObjects.ids then (s.writtenObjects.get id).storageRebate else 0 := by
    intro id
    unfold ObjectMap.get?
    split_ifs <;> rfl
  simp only [hmodified, Finset.sum_ite_mem, decide_eq_true_eq, Finset.filter_notMem_eq_sdiff,
    Finset.inter_comm s.modifiedObjects]
  exact Finset.sum_inter_add_sum_sdiff _ _ _

theorem rebateTotals_getModifiedObjects (hknown : s.ModifiedHaveMetadata) :
    ∃ objects, s.getModifiedObjects = .ok objects ∧
      rebateTotals objects = (s.totalInputRebate, s.totalOutputRebate) := by
  have hmodified := mapM_except_eq_ok_map
    (f := fun id => do pure (id, ← s.getObjectModifiedAt id, s.writtenObjects.get? id))
    (g := fun id => (id, (if id ∈ s.modifiedObjects then some (s.previousStorageRebate id) else none),
      s.writtenObjects.get? id))
    (l := ascending s.modifiedObjects) (fun id _ => by rw [getObjectModifiedAt_eq hknown]; rfl)
  refine ⟨_, by unfold getModifiedObjects; rw [hmodified]; rfl, ?_⟩
  rw [rebateTotals_eq, ← sum_outputs_eq_totalOutputRebate]
  simp only [List.map_append, List.map_map, List.sum_append, Function.comp_def, Option.getD_none,
    Option.map_some, Option.getD_some]
  refine Prod.ext ?_ rfl
  -- a created object has no old version to count
  simp only [List.map_const', List.sum_replicate, nsmul_zero, Nat.add_zero, sum_map_ascending]
  exact Finset.sum_congr rfl fun id hid => by simp [hid]

theorem checkIotaConserved_eq_ok_iff (hknown : s.ModifiedHaveMetadata) (gasSummary : GasCostSummary) :
    s.checkIotaConserved gasSummary = .ok (.ok ()) ↔
      if gasSummary.storageCost = 0 then
        s.totalInputRebate = s.totalOutputRebate + gasSummary.storageRebate + gasSummary.nonRefundableStorageFee
      else
        s.totalInputRebate = gasSummary.storageRebate + gasSummary.nonRefundableStorageFee ∧
          gasSummary.storageCost = s.totalOutputRebate := by
  obtain ⟨objects, hobjects, htotals⟩ := rebateTotals_getModifiedObjects hknown
  unfold checkIotaConserved
  rw [hobjects, except_ok_bind, htotals]
  by_cases hcost : gasSummary.storageCost = 0
  · simp [hcost, pure, Except.pure]
  · simp only [hcost, if_false]
    by_cases hin : s.totalInputRebate = gasSummary.storageRebate + gasSummary.nonRefundableStorageFee <;>
      by_cases hout : gasSummary.storageCost = s.totalOutputRebate <;>
      simp [hin, hout, pure, Except.pure]

/-! ### Collecting storage costs and rebates -/

theorem foldl_trackDeleted (written : Finset ℕ) (rebate : ℕ → ℕ) :
    ∀ (l : List ℕ) (g : IotaGasStatus), g.charge = true →
      l.foldl (fun g id => if id ∈ written then g else (g.trackStorageMutation id 0 (rebate id)).1) g =
        { g with perObjectStorage := g.perObjectStorage ++
            (l.filter (· ∉ written)).map fun id => (id, ⟨0, rebate id, 0⟩) }
  | [], g, _ => by simp
  | id :: l, g, hcharge => by
    rw [List.foldl_cons]
    by_cases hid : id ∈ written
    · rw [if_pos hid, foldl_trackDeleted written rebate l g hcharge]
      simp [hid]
    · rw [if_neg hid, IotaGasStatus.trackStorageMutation_of_charge hcharge]
      dsimp only
      rw [foldl_trackDeleted written rebate l
        { g with perObjectStorage := g.perObjectStorage ++ [(id, ⟨g.storagePrice 0, rebate id, 0⟩)] } hcharge]
      simp [hid]

theorem collectRebate_eq_ok (hknown : s.ModifiedHaveMetadata) {g : IotaGasStatus} (hcharge : g.charge = true) :
    s.collectRebate g = .ok { g with perObjectStorage := g.perObjectStorage ++
      ((ascending s.modifiedObjects).filter (· ∉ s.writtenObjects.ids)).map fun id =>
        (id, ⟨0, s.previousStorageRebate id, 0⟩) } := by
  unfold collectRebate
  rw [foldlM_except_eq_ok_foldl (g := fun g id =>
    if id ∈ s.writtenObjects.ids then g else (g.trackStorageMutation id 0 (s.previousStorageRebate id)).1),
    foldl_trackDeleted _ _ _ _ hcharge]
  intro g id hid
  unfold collectRebateStep
  split_ifs
  · rfl
  · rw [getObjectModifiedAt_eq hknown, if_pos (mem_ascending.mp hid)]
    rfl

theorem zip_map_self {α β : Type*} (f : α → β) : ∀ l : List α, l.zip (l.map f) = l.map fun a => (a, f a)
  | [] => rfl
  | a :: l => by rw [List.map_cons, List.zip_cons_cons, zip_map_self f l, List.map_cons]

theorem foldl_trackWritten (old : ℕ → ℕ) :
    ∀ (l : List ℕ) (m : ObjectMap) (g : IotaGasStatus), g.charge = true →
      (l.map fun id => (id, old id)).foldl s.trackWritten (m, g) =
        (l.foldl (fun m id => m.setStorageRebate id (g.storagePrice (s.writtenObjects.get id).size)) m,
          { g with perObjectStorage := g.perObjectStorage ++ l.map fun id =>
              ((s.writtenObjects.get id).id, ⟨g.storagePrice (s.writtenObjects.get id).size, old id,
                (s.writtenObjects.get id).size⟩) })
  | [], _, g, _ => by simp
  | id :: l, m, g, hcharge => by
    rw [List.map_cons, List.foldl_cons, List.foldl_cons]
    simp only [trackWritten, IotaGasStatus.trackStorageMutation_of_charge hcharge]
    rw [foldl_trackWritten old l _ { g with perObjectStorage := g.perObjectStorage ++
      [((s.writtenObjects.get id).id, ⟨g.storagePrice (s.writtenObjects.get id).size, old id,
        (s.writtenObjects.get id).size⟩)] } hcharge]
    simp only [IotaGasStatus.storagePrice_perObjectStorage, List.map_cons, List.append_assoc, List.singleton_append]

theorem foldl_setStorageRebate (price : ℕ → ℕ) :
    ∀ (l : List ℕ) (m : ObjectMap), (l.foldl (fun m id => m.setStorageRebate id (price id)) m).ids = m.ids ∧
      ∀ k, (l.foldl (fun m id => m.setStorageRebate id (price id)) m).get k =
        if k ∈ l then { m.get k with storageRebate := price k } else m.get k
  | [], m => by simp
  | id :: l, m => by
    obtain ⟨hids, hget⟩ := foldl_setStorageRebate price l (m.setStorageRebate id (price id))
    refine ⟨hids, fun k => ?_⟩
    rw [List.foldl_cons, hget k]
    by_cases hk : k = id
    · subst hk
      simp [ObjectMap.setStorageRebate]
    · simp [ObjectMap.setStorageRebate, hk]

theorem sum_written_add_sum_deleted (written modified : Finset ℕ) (rebate : ℕ → ℕ) :
    ∑ id ∈ written, (if id ∈ modified then rebate id else 0) + ∑ id ∈ modified.filter (· ∉ written), rebate id =
      ∑ id ∈ modified, rebate id := by
  rw [Finset.sum_ite_mem, Finset.filter_notMem_eq_sdiff, Finset.inter_comm]
  exact Finset.sum_inter_add_sum_sdiff modified written rebate

theorem collectStorageAndRebate_eq_ok (hknown : s.ModifiedHaveMetadata) {g : IotaGasStatus}
    (hcharge : g.charge = true) :
    ∃ written entries, s.collectStorageAndRebate g =
        .ok ({ s with writtenObjects := written }, { g with perObjectStorage := g.perObjectStorage ++ entries }) ∧
      written.ids = s.writtenObjects.ids ∧
      (∀ id, written.get id = if id ∈ s.writtenObjects.ids then
        { s.writtenObjects.get id with storageRebate := g.storagePrice (s.writtenObjects.get id).size }
        else s.writtenObjects.get id) ∧
      (entries.map fun e => e.2.storageRebate).sum = s.totalInputRebate ∧
      (entries.map fun e => e.2.storageCost).sum = ∑ id ∈ written.ids, (written.get id).storageRebate := by
  let old := fun id => if id ∈ s.modifiedObjects then s.previousStorageRebate id else 0
  let price := fun id => g.storagePrice (s.writtenObjects.get id).size
  -- none of the lookups of the old rebates panics
  have hold : (ascending s.writtenObjects.ids).mapM (fun objectId => do
      pure ((← s.getObjectModifiedAt objectId).getD 0)) = .ok ((ascending s.writtenObjects.ids).map old) :=
    mapM_except_eq_ok_map fun id _ => by
      rw [getObjectModifiedAt_eq hknown]
      by_cases h : id ∈ s.modifiedObjects <;> simp [old, h, pure, Except.pure]
  obtain ⟨written, hwritten⟩ : ∃ written,
      (ascending s.writtenObjects.ids).foldl (fun m id => m.setStorageRebate id (price id)) s.writtenObjects =
        written := ⟨_, rfl⟩
  obtain ⟨hids, hget⟩ := foldl_setStorageRebate price (ascending s.writtenObjects.ids) s.writtenObjects
  rw [hwritten] at hids hget
  have hcollect := collectRebate_eq_ok (s := { s with writtenObjects := written }) hknown
    (g := { g with perObjectStorage := g.perObjectStorage ++ (ascending s.writtenObjects.ids).map fun id =>
      ((s.writtenObjects.get id).id, ⟨price id, old id, (s.writtenObjects.get id).size⟩) }) hcharge
  refine ⟨written, (ascending s.writtenObjects.ids).map (fun id =>
      ((s.writtenObjects.get id).id, ⟨price id, old id, (s.writtenObjects.get id).size⟩)) ++
      ((ascending s.modifiedObjects).filter (· ∉ written.ids)).map (fun id => (id, ⟨0, s.previousStorageRebate id, 0⟩)),
    ?_, hids, fun id => by simp only [hget id, mem_ascending, price], ?_, ?_⟩
  · unfold collectStorageAndRebate
    dsimp only
    rw [hold, except_ok_bind, zip_map_self, foldl_trackWritten old _ _ _ hcharge, hwritten]
    dsimp only
    rw [hcollect, except_ok_bind]
    simp only [List.append_assoc]
    rfl
  · simp only [List.map_append, List.map_map, List.sum_append, Function.comp_def, hids,
      sum_map_ascending, sum_map_filter_ascending, decide_eq_true_eq]
    exact sum_written_add_sum_deleted _ _ _
  · simp only [List.map_append, List.map_map, List.sum_append, Function.comp_def, hids,
      sum_map_ascending, List.map_const', List.sum_replicate, nsmul_zero, Nat.add_zero]
    refine Finset.sum_congr rfl fun id hid => ?_
    rw [hget id, if_pos (mem_ascending.mpr hid)]

/-! ### Forcing the mutable inputs to be written -/

theorem foldl_mutateInputObject : ∀ (l : List ℕ) (s : TemporaryStore), (∀ id ∈ l, id ∈ s.inputObjects.ids) →
    let t := (l.map s.inputObjects.get).foldl mutateInputObject s
    t.inputs = s.inputs ∧ t.modifiedObjects = s.modifiedObjects ∪ l.toFinset ∧
      t.writtenObjects.ids = s.writtenObjects.ids ∪ l.toFinset ∧
      ∀ id, t.writtenObjects.get id = if id ∈ l then s.inputObjects.get id else s.writtenObjects.get id
  | [], s, _ => by simp
  | id :: l, s, hinputs => by
    have hid : (s.inputObjects.get id).id = id := s.inputObjects.get_id id (hinputs id List.mem_cons_self)
    obtain ⟨hin, hmod, hids, hget⟩ := foldl_mutateInputObject l (s.mutateInputObject (s.inputObjects.get id))
      fun k hk => hinputs k (List.mem_cons_of_mem id hk)
    simp only [inputObjects_mutateInputObject] at hin hmod hids hget
    simp only [List.map_cons, List.foldl_cons]
    refine ⟨hin, ?_, ?_, fun k => ?_⟩
    · rw [hmod]
      ext k
      simp [mutateInputObject, hid]
    · rw [hids]
      ext k
      simp [mutateInputObject, ObjectMap.insert, hid]
    · rw [hget k]
      by_cases hk : k = id
      · subst hk
        simp [mutateInputObject, ObjectMap.insert, hid]
      · simp [mutateInputObject, ObjectMap.insert, hid, hk]

theorem ensureActiveInputsMutated_spec (s : TemporaryStore) :
    s.ensureActiveInputsMutated.inputs = s.inputs ∧
    s.ensureActiveInputsMutated.modifiedObjects = s.modifiedObjects ∪ s.mutableInputRefs ∧
    s.ensureActiveInputsMutated.writtenObjects.ids = s.writtenObjects.ids ∪ (s.mutableInputRefs \ s.modifiedObjects) ∧
    ∀ id, s.ensureActiveInputsMutated.writtenObjects.get id =
      if id ∈ s.mutableInputRefs ∧ id ∉ s.modifiedObjects then s.inputObjects.get id else s.writtenObjects.get id := by
  obtain ⟨hin, hmod, hids, hget⟩ := foldl_mutateInputObject
    ((ascending s.mutableInputRefs).filter (· ∉ s.modifiedObjects)) s
    fun id hid => s.mutableInputRefs_subset (mem_ascending.mp (List.mem_filter.mp hid).1)
  refine ⟨hin, ?_, ?_, fun id => ?_⟩
  · rw [ensureActiveInputsMutated, hmod]
    ext id
    by_cases hid : id ∈ s.modifiedObjects <;> simp [hid]
  · rw [ensureActiveInputsMutated, hids]
    ext id
    simp
  · rw [ensureActiveInputsMutated, hget id]
    simp

/-! ### Deleting the other gas coins and writing the gas coin -/

theorem readObject_of_mem_written {id : ℕ} (h : id ∈ s.writtenObjects.ids) :
    s.readObject id = some (s.writtenObjects.get id) := by
  simp [readObject, ObjectMap.get?, h]

theorem readObject_of_not_mem_written {id : ℕ} (h : id ∉ s.writtenObjects.ids) :
    s.readObject id = s.inputObjects.get? id := by
  simp [readObject, ObjectMap.get?, h]

theorem foldl_deleteInputObject : ∀ (l : List ℕ) (s : TemporaryStore),
    l.foldl deleteInputObject s = { s with modifiedObjects := s.modifiedObjects ∪ l.toFinset }
  | [], s => by simp
  | id :: l, s => by
    rw [List.foldl_cons, foldl_deleteInputObject l]
    simp [deleteInputObject, Finset.insert_union, Finset.union_insert]

theorem totalInputRebate_mutateInputObject {o : Object} (h : o.id ∈ s.modifiedObjects) :
    (s.mutateInputObject o).totalInputRebate = s.totalInputRebate := by
  show ∑ id ∈ insert o.id s.modifiedObjects, s.previousStorageRebate id = _
  rw [Finset.insert_eq_of_mem h, totalInputRebate]

theorem totalOutputRebate_mutateInputObject {o : Object} (h : o.id ∈ s.writtenObjects.ids)
    (hrebate : o.storageRebate = (s.writtenObjects.get o.id).storageRebate) :
    (s.mutateInputObject o).totalOutputRebate = s.totalOutputRebate := by
  unfold totalOutputRebate
  simp only [mutateInputObject, ObjectMap.insert, Finset.insert_eq_of_mem h]
  refine Finset.sum_congr rfl fun id _ => ?_
  by_cases hid : id = o.id
  · subst hid
    simp [hrebate]
  · rw [Function.update_of_ne hid]

theorem modifiedHaveMetadata_mutateInputObject (hknown : s.ModifiedHaveMetadata) {o : Object}
    (h : o.id ∈ s.modifiedObjects) : (s.mutateInputObject o).ModifiedHaveMetadata := by
  intro id hid
  rw [hasMetadata_congr (inputs_mutateInputObject o)]
  refine hknown id ?_
  simpa [mutateInputObject, Finset.insert_eq_of_mem h] using hid

end TemporaryStore

end Iota.Execution
