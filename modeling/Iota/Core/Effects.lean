import Mathlib
import Iota.Core.BaseTypes
import Iota.Lib.Ascending
import Iota.Lib.LastOfRuns

/-! The object changes of `TransactionEffectsV1` (`crates/iota-types/src/effects`) and
what the store makes of them: `write_one_transaction_outputs` writes every created,
mutated and unwrapped object at its new version, and a tombstone for every deleted,
wrapped or unwrapped-then-deleted one, into the objects table keyed by
`ObjectKey(id, version)`; `LiveSetIter` (`authority_store_tables.rs`) walks that table
in key order and yields, for each id, the entry of its highest version when it holds an
object.  Objects are kept as their digests; owners are not read here. -/

namespace Iota.Core

open Iota.Lib

namespace ObjectKey

def lexKey (k : ObjectKey) : Lex (ℕ × ℕ) := toLex (k.id, k.version)

theorem lexKey_injective : Function.Injective lexKey := by
  intro a b h
  cases a
  cases b
  simp only [lexKey, toLex_inj, Prod.mk.injEq] at h
  rw [h.1, h.2]

/-- The derived `Ord` of `ObjectKey(ObjectID, SequenceNumber)`: by id, then by version. -/
instance : LinearOrder ObjectKey := LinearOrder.lift' lexKey lexKey_injective

theorem le_iff {a b : ObjectKey} : a ≤ b ↔ a.id < b.id ∨ a.id = b.id ∧ a.version ≤ b.version :=
  Prod.Lex.toLex_le_toLex

theorem id_le_of_le {a b : ObjectKey} (h : a ≤ b) : a.id ≤ b.id := by
  rcases Iff.mp le_iff h with hlt | ⟨heq, -⟩
  · exact hlt.le
  · exact heq.le

end ObjectKey

/-- A digest of 32 equal bytes, read as a big-endian number. -/
def repeatedDigest (byte : ℕ) : ℕ := (List.replicate 32 byte).foldl (fun digest b => digest * 256 + b) 0

def OBJECT_DIGEST_DELETED : ℕ := repeatedDigest 99

def OBJECT_DIGEST_WRAPPED : ℕ := repeatedDigest 88

inductive ObjectIn
  | notExist
  | exist (version digest : ℕ)
  deriving DecidableEq, Repr

inductive ObjectOut
  | notExist
  | objectWrite (digest : ℕ)
  /-- A package keeps its own version rather than the lamport version. -/
  | packageWrite (version digest : ℕ)
  deriving DecidableEq, Repr

inductive IDOperation
  | none
  | created
  | deleted
  deriving DecidableEq, Repr

structure EffectsObjectChange where
  inputState : ObjectIn
  outputState : ObjectOut
  idOperation : IDOperation
  deriving DecidableEq, Repr

/-- The fields of `TransactionEffectsV1` that the store and the accumulator read. -/
structure TransactionEffectsV1 where
  changedObjects : List (ℕ × EffectsObjectChange)
  lamportVersion : ℕ
  deriving DecidableEq, Repr

/-! ### The accessors, one object change at a time -/

section Accessors

variable (lamport : ℕ)

def oldObjectMetadataOf : ℕ × EffectsObjectChange → Option ObjectRef
  | (id, ⟨.exist version digest, _, _⟩) => some ⟨id, version, digest⟩
  | _ => none

def createdOf : ℕ × EffectsObjectChange → Option ObjectRef
  | (id, ⟨.notExist, .objectWrite digest, .created⟩) => some ⟨id, lamport, digest⟩
  | (id, ⟨.notExist, .packageWrite version digest, .created⟩) => some ⟨id, version, digest⟩
  | _ => none

def mutatedOf : ℕ × EffectsObjectChange → Option ObjectRef
  | (id, ⟨.exist _ _, .objectWrite digest, _⟩) => some ⟨id, lamport, digest⟩
  | (id, ⟨.exist _ _, .packageWrite version digest, _⟩) => some ⟨id, version, digest⟩
  | _ => none

def unwrappedOf : ℕ × EffectsObjectChange → Option ObjectRef
  | (id, ⟨.notExist, .objectWrite digest, .none⟩) => some ⟨id, lamport, digest⟩
  | _ => none

def deletedOf : ℕ × EffectsObjectChange → Option ObjectRef
  | (id, ⟨.exist _ _, .notExist, .deleted⟩) => some ⟨id, lamport, OBJECT_DIGEST_DELETED⟩
  | _ => none

def unwrappedThenDeletedOf : ℕ × EffectsObjectChange → Option ObjectRef
  | (id, ⟨.notExist, .notExist, .deleted⟩) => some ⟨id, lamport, OBJECT_DIGEST_DELETED⟩
  | _ => none

def wrappedOf : ℕ × EffectsObjectChange → Option ObjectRef
  | (id, ⟨.exist _ _, .notExist, .none⟩) => some ⟨id, lamport, OBJECT_DIGEST_WRAPPED⟩
  | _ => none

end Accessors

namespace TransactionEffectsV1

variable (fx : TransactionEffectsV1)

def oldObjectMetadata : List ObjectRef := fx.changedObjects.filterMap oldObjectMetadataOf

def created : List ObjectRef := fx.changedObjects.filterMap (createdOf fx.lamportVersion)

def mutated : List ObjectRef := fx.changedObjects.filterMap (mutatedOf fx.lamportVersion)

def unwrapped : List ObjectRef := fx.changedObjects.filterMap (unwrappedOf fx.lamportVersion)

def deleted : List ObjectRef := fx.changedObjects.filterMap (deletedOf fx.lamportVersion)

def unwrappedThenDeleted : List ObjectRef := fx.changedObjects.filterMap (unwrappedThenDeletedOf fx.lamportVersion)

def wrapped : List ObjectRef := fx.changedObjects.filterMap (wrappedOf fx.lamportVersion)

/-- `all_changed_objects`: the mutated, created and unwrapped objects, without their
owners and write kinds. -/
def allChangedObjects : List ObjectRef := fx.mutated ++ fx.created ++ fx.unwrapped

end TransactionEffectsV1

/-! ### The objects table -/

inductive StoreObject
  | value (digest : ℕ)
  | deleted
  | wrapped
  deriving DecidableEq, Repr

abbrev ObjectsTable := AList fun _ : ObjectKey => StoreObject

/-- What `write_one_transaction_outputs` puts into the objects table: the tombstones of
the deleted and unwrapped-then-deleted objects, then those of the wrapped ones, then the
written objects. -/
def objectWrites (fx : TransactionEffectsV1) : List (ObjectKey × StoreObject) :=
  (fx.deleted ++ fx.unwrappedThenDeleted).map (fun r => (r.toKey, .deleted)) ++
    fx.wrapped.map (fun r => (r.toKey, .wrapped)) ++
    fx.allChangedObjects.map fun r => (r.toKey, .value r.digest)

def writeTransactionOutputs (objects : ObjectsTable) (fx : TransactionEffectsV1) : ObjectsTable :=
  (objectWrites fx).foldl (fun objects write => objects.insert write.1 write.2) objects

/-- The table's entries in key order, as `unbounded_iter` yields them. -/
def entries (objects : ObjectsTable) : List (ObjectKey × StoreObject) :=
  (ascending objects.keys.toFinset).filterMap fun key => (objects.lookup key).map (key, ·)

/-- `store_object_wrapper_to_live_object`: an object is live, a tombstone is not.  A live
object is given by its reference. -/
def toLiveObject : ObjectKey × StoreObject → Option ObjectRef
  | (key, .value digest) => some ⟨key.id, key.version, digest⟩
  | (_, .deleted) => none
  | (_, .wrapped) => none

/-- `LiveSetIter::next` called until it returns `None`: each entry is held back until the
next one shows whether it is the last of its id. -/
def liveSetIter : Option (ObjectKey × StoreObject) → List (ObjectKey × StoreObject) → List ObjectRef
  | prev, next :: rest =>
    (match prev with
      | some prev => if prev.1.id ≠ next.1.id then (toLiveObject prev).toList else []
      | none => []) ++ liveSetIter (some next) rest
  | some prev, [] => (toLiveObject prev).toList
  | none, [] => []

def iterLiveObjectSet (objects : ObjectsTable) : List ObjectRef := liveSetIter none (entries objects)

end Iota.Core

namespace Iota.Core

open Iota.Lib

/-! ### The live set iterator keeps the last entry of each id -/

theorem liveSetIter_some : ∀ (prev : ObjectKey × StoreObject) (rest : List (ObjectKey × StoreObject)),
    liveSetIter (some prev) rest = (lastOfRuns (·.1.id) (prev :: rest)).filterMap toLiveObject
  | prev, [] => by
    rw [liveSetIter, lastOfRuns, List.filterMap_cons, List.filterMap_nil]
    cases toLiveObject prev <;> rfl
  | prev, next :: rest => by
    rw [liveSetIter, liveSetIter_some next rest, lastOfRuns]
    by_cases hid : prev.1.id = next.1.id
    · -- the same id goes on: `prev` is not the last of it
      rw [if_neg (not_not.mpr hid), if_pos hid]
      rfl
    · rw [if_pos hid, if_neg hid, List.filterMap_cons]
      cases toLiveObject prev <;> rfl

theorem iterLiveObjectSet_eq (objects : ObjectsTable) :
    iterLiveObjectSet objects = (lastOfRuns (·.1.id) (entries objects)).filterMap toLiveObject := by
  rw [iterLiveObjectSet]
  cases entries objects with
  | nil => rfl
  | cons entry rest => rw [liveSetIter, liveSetIter_some]; rfl

theorem mem_entries {objects : ObjectsTable} {entry : ObjectKey × StoreObject} :
    entry ∈ entries objects ↔ objects.lookup entry.1 = some entry.2 := by
  obtain ⟨key, o⟩ := entry
  simp only [entries, List.mem_filterMap, mem_ascending, List.mem_toFinset, Option.map_eq_some_iff,
    Prod.mk.injEq]
  constructor
  · rintro ⟨k, -, o', hlookup, rfl, rfl⟩
    exact hlookup
  · intro hlookup
    exact ⟨key, AList.mem_keys.mp (AList.lookup_isSome.mp (by simp [hlookup])), o, hlookup, rfl, rfl⟩

theorem ordered_entries (objects : ObjectsTable) : Ordered (·.1.id) (·.1) (entries objects) where
  sorted := by
    rw [entries, ascending_eq_sort]
    apply List.Pairwise.filterMap _ _ (Finset.sortedLT_sort _).pairwise
    intro a b hab e he e' he'
    obtain ⟨o, -, rfl⟩ := Option.map_eq_some_iff.mp he
    obtain ⟨o', -, rfl⟩ := Option.map_eq_some_iff.mp he'
    exact hab
  key_mono := fun _ _ _ _ hle => ObjectKey.id_le_of_le hle

/-! ### The live object of an id -/

/-- The entry of the highest version of `id`. -/
def latest (objects : ObjectsTable) (id : ℕ) : Option (ObjectKey × StoreObject) :=
  (lastOfRuns (·.1.id) (entries objects)).find? (·.1.id = id)

/-- The live object of `id`: its highest version, unless that is a tombstone. -/
def liveObject (objects : ObjectsTable) (id : ℕ) : Option ObjectRef := (latest objects id).bind toLiveObject

/-- The ids with an entry in the table. -/
def objectIds (objects : ObjectsTable) : Finset ℕ := objects.keys.toFinset.image (·.id)

theorem mem_keys_iff {objects : ObjectsTable} {key : ObjectKey} :
    key ∈ objects.keys ↔ ∃ o, objects.lookup key = some o := by
  rw [← AList.mem_keys, ← AList.lookup_isSome, Option.isSome_iff_exists]

theorem mem_lastOfRuns_entries {objects : ObjectsTable} {entry : ObjectKey × StoreObject} :
    entry ∈ lastOfRuns (·.1.id) (entries objects) ↔
      objects.lookup entry.1 = some entry.2 ∧ ∀ key ∈ objects.keys, key.id = entry.1.id → key ≤ entry.1 := by
  rw [mem_lastOfRuns_iff (ordered_entries objects), mem_entries]
  apply and_congr_right
  intro _
  constructor
  · intro hlast key hkey hid
    obtain ⟨o, ho⟩ := Iff.mp mem_keys_iff hkey
    exact hlast (key, o) (Iff.mpr mem_entries ho) hid
  · intro hlast other hother hid
    exact hlast other.1 (Iff.mpr mem_keys_iff ⟨_, Iff.mp mem_entries hother⟩) hid

theorem latest_eq_some_iff {objects : ObjectsTable} {id : ℕ} {entry : ObjectKey × StoreObject} :
    latest objects id = some entry ↔
      entry.1.id = id ∧ objects.lookup entry.1 = some entry.2 ∧
        ∀ key ∈ objects.keys, key.id = id → key ≤ entry.1 := by
  have hpairwise := (ordered_entries objects).pairwise_lastOfRuns
  unfold latest
  constructor
  · intro h
    have hid : entry.1.id = id := by simpa using List.find?_some h
    obtain ⟨hlookup, hlast⟩ := Iff.mp mem_lastOfRuns_entries (List.mem_of_find?_eq_some h)
    exact ⟨hid, hlookup, fun key hkey hkid => hlast key hkey (hkid.trans hid.symm)⟩
  · rintro ⟨hid, hlookup, hlast⟩
    have hmem : entry ∈ lastOfRuns (·.1.id) (entries objects) :=
      Iff.mpr mem_lastOfRuns_entries ⟨hlookup, fun key hkey hkid => hlast key hkey (hkid.trans hid)⟩
    -- the first entry of this id is the only one
    have hsome : (List.find? (fun e => decide (e.1.id = id)) (lastOfRuns (·.1.id) (entries objects))).isSome :=
      List.find?_isSome.mpr ⟨entry, hmem, by simpa using hid⟩
    obtain ⟨found, hfound⟩ := Option.isSome_iff_exists.mp hsome
    have hfid : found.1.id = id := by simpa using List.find?_some hfound
    rw [hfound,
      eq_of_pairwise_key_lt hpairwise (List.mem_of_find?_eq_some hfound) hmem (hfid.trans hid.symm)]

theorem latest_eq_none_iff {objects : ObjectsTable} {id : ℕ} :
    latest objects id = none ↔ ∀ key ∈ objects.keys, key.id ≠ id := by
  rw [latest, List.find?_eq_none]
  constructor
  · intro h key hkey hid
    obtain ⟨o, ho⟩ := Iff.mp mem_keys_iff hkey
    obtain ⟨kept, hkept, hkid, -⟩ :=
      exists_mem_lastOfRuns (ordered_entries objects) (a := (key, o)) (Iff.mpr mem_entries ho)
    exact h kept hkept (decide_eq_true (hkid.trans hid))
  · intro h kept hkept hid
    obtain ⟨hlookup, -⟩ := Iff.mp mem_lastOfRuns_entries hkept
    exact h kept.1 (Iff.mpr mem_keys_iff ⟨_, hlookup⟩) (of_decide_eq_true hid)

theorem sum_lastOfRuns_entries (objects : ObjectsTable) (f : ObjectKey × StoreObject → ℤ) :
    ((lastOfRuns (·.1.id) (entries objects)).map f).sum =
      ∑ id ∈ objectIds objects, ((latest objects id).map f).getD 0 := by
  have hpairwise := (ordered_entries objects).pairwise_lastOfRuns
  have hnodup : (lastOfRuns (·.1.id) (entries objects)).Nodup :=
    hpairwise.imp fun {a b} h hab => absurd (hab ▸ h) (lt_irrefl _)
  rw [← List.sum_toFinset f hnodup]
  -- each kept entry stands for its id, and is the latest entry of it
  have hlatest : ∀ entry ∈ lastOfRuns (·.1.id) (entries objects), latest objects entry.1.id = some entry := by
    intro entry hentry
    obtain ⟨hlookup, hlast⟩ := Iff.mp mem_lastOfRuns_entries hentry
    exact Iff.mpr latest_eq_some_iff ⟨rfl, hlookup, hlast⟩
  apply Finset.sum_nbij (fun entry => entry.1.id)
  · intro entry hentry
    obtain ⟨hlookup, -⟩ := Iff.mp mem_lastOfRuns_entries (List.mem_toFinset.mp hentry)
    exact Finset.mem_image.mpr ⟨entry.1, List.mem_toFinset.mpr (Iff.mpr mem_keys_iff ⟨_, hlookup⟩), rfl⟩
  · intro entry hentry other hother hid
    exact eq_of_pairwise_key_lt hpairwise (List.mem_toFinset.mp hentry) (List.mem_toFinset.mp hother) hid
  · intro id hid
    obtain ⟨key, hkey, rfl⟩ := Finset.mem_image.mp hid
    obtain ⟨o, ho⟩ := Iff.mp mem_keys_iff (List.mem_toFinset.mp hkey)
    obtain ⟨kept, hkept, hkid, -⟩ :=
      exists_mem_lastOfRuns (ordered_entries objects) (a := (key, o)) (Iff.mpr mem_entries ho)
    exact ⟨kept, List.mem_toFinset.mpr hkept, hkid⟩
  · intro entry hentry
    rw [hlatest entry (List.mem_toFinset.mp hentry)]
    rfl

end Iota.Core
