import Iota.Core.SharedObjectVersions

/-! The execution side of shared versions:
`TransactionInputLoader::read_objects_for_execution`
(`crates/iota-core/src/transaction_input_loader.rs`) and
`InputObjects::lamport_timestamp` (`crates/iota-types/src/transaction.rs`).

The loader reads a shared input at the version recorded for the transaction
(`get_shared_locks`, the versions the consensus handler assigned).  A
reserved version marks a cancelled transaction and is not fetched.  An
object fetched by key is the Move object stored at that version; a shared
object missing there may have been deleted at that version.  Execution then
stamps its outputs one above every version it loaded and every receiving
object. -/

namespace Iota.Core

open Iota.Lib SequenceNumber

inductive ObjectData
  | package
  | moveObject (version : ℕ)
  deriving DecidableEq

inductive ObjectReadResultKind
  | object (data : ObjectData)
  | deletedSharedObject (version dependency : ℕ)
  | cancelledTransactionSharedObject (version : ℕ)
  deriving DecidableEq

structure ObjectReadResult where
  inputObjectKind : InputObjectKind
  object : ObjectReadResultKind
  deriving DecidableEq

/-- Where the loader stops. -/
inductive LoadPanic
  /-- "Executable transaction {tx_key:?} depends on non-existent package {id:?}" -/
  | nonExistentPackage (id : ℕ)
  /-- "Failed to get shared locks for transaction {tx_key:?}" -/
  | sharedLocksMissing
  /-- "Shared object locks should have been set. key: {tx_key:?}, obj id: {id:?}" -/
  | sharedLockNotSet (id : ℕ)
  /-- `assert!(key.1.is_valid())` on a shared object that is absent -/
  | invalidSharedVersion (id version : ℕ)
  /-- "... Shared Object id: {}, version: {version} is absent in epoch {epoch_id}" -/
  | sharedObjectAbsent (id version : ℕ)
  /-- "... obj {key:?} is absent" -/
  | objectAbsent (key : ObjectKey)
  deriving DecidableEq

/-- What the object cache answers for the loader. -/
structure ObjectCache where
  packageExists : ℕ → Bool
  objectExists : ObjectKey → Bool
  deletedSharedObjectPreviousTxDigest : ℕ → ℕ → Option ℕ

/-- An input after the first pass: read already, or to be fetched by key. -/
inductive PendingRead
  | ready (result : ObjectReadResult)
  | fetch (key : ObjectKey) (input : InputObjectKind)

/-- The version recorded for a shared object; collected into a map, a later
entry wins. -/
def sharedLockOf (sharedLocks : List (ℕ × ℕ)) (id : ℕ) : Option ℕ := sharedLocks.reverse.lookup id

/-- The first pass: packages are read, owned inputs and shared inputs that
are not cancelled are queued for the batch fetch. -/
def prepareRead (cache : ObjectCache) (sharedLocks : Option (List (ℕ × ℕ))) (input : InputObjectKind) :
    Except LoadPanic PendingRead :=
  match input with
  | .movePackage id =>
    if cache.packageExists id then .ok (.ready ⟨input, .object .package⟩) else .error (.nonExistentPackage id)
  | .immOrOwnedMoveObject ref => .ok (.fetch ref.toKey input)
  | .sharedMoveObject id _ _ =>
    match sharedLocks with
    | none => .error .sharedLocksMissing
    | some locks =>
      match sharedLockOf locks id with
      | none => .error (.sharedLockNotSet id)
      | some version =>
        -- no need to fetch a shared object of a cancelled transaction
        if isCancelled version then .ok (.ready ⟨input, .cancelledTransactionSharedObject version⟩)
        else .ok (.fetch ⟨id, version⟩ input)

/-- The second pass, over the batch fetch. -/
def fetchRead (cache : ObjectCache) : PendingRead → Except LoadPanic ObjectReadResult
  | .ready result => .ok result
  | .fetch key input =>
    if cache.objectExists key then .ok ⟨input, .object (.moveObject key.version)⟩
    else match input with
      | .sharedMoveObject id _ _ =>
        if ¬isValid key.version then .error (.invalidSharedVersion id key.version)
        -- the object may have been deleted by a concurrently certified transaction
        else match cache.deletedSharedObjectPreviousTxDigest id key.version with
          | some dependency => .ok ⟨input, .deletedSharedObject key.version dependency⟩
          | none => .error (.sharedObjectAbsent id key.version)
      | _ => .error (.objectAbsent key)

def readObjectsForExecution (cache : ObjectCache) (sharedLocks : Option (List (ℕ × ℕ)))
    (inputObjectKinds : List InputObjectKind) : Except LoadPanic (List ObjectReadResult) := do
  let pending ← inputObjectKinds.mapM (prepareRead cache sharedLocks)
  pending.mapM (fetchRead cache)

/-- The version a loaded input counts with: a package has none, nor has a
shared input of a cancelled transaction. -/
def ObjectReadResultKind.inputVersion : ObjectReadResultKind → Option ℕ
  | .object .package => none
  | .object (.moveObject version) => some version
  | .deletedSharedObject version _ => some version
  | .cancelledTransactionSharedObject _ => none

/-- `InputObjects::lamport_timestamp`. -/
def lamportTimestamp (objects : List ObjectReadResult) (receivingObjects : List ObjectRef) : Option ℕ :=
  lamportIncrement (objects.filterMap (·.object.inputVersion) ++ receivingObjects.map ObjectRef.version)

/-! ### The loaded versions

Which version each input contributes depends only on the recorded versions:
the loader's two passes and the cache decide whether it panics, not which
version a loaded input carries. -/

/-- The version an input is loaded at, read off the recorded versions. -/
def expectedVersion (locks : List (ℕ × ℕ)) : InputObjectKind → Option ℕ
  | .movePackage _ => none
  | .immOrOwnedMoveObject ref => some ref.version
  | .sharedMoveObject id _ _ => (sharedLockOf locks id).filter fun v => !isCancelled v

section Loader

variable {cache : ObjectCache} {locks : List (ℕ × ℕ)}

theorem inputVersion_eq_expectedVersion {input : InputObjectKind} {pending : PendingRead} {r : ObjectReadResult}
    (hprepare : prepareRead cache (some locks) input = .ok pending) (hfetch : fetchRead cache pending = .ok r) :
    r.object.inputVersion = expectedVersion locks input := by
  cases input with
  | movePackage id =>
    simp only [prepareRead] at hprepare
    split_ifs at hprepare
    cases hprepare
    cases hfetch
    rfl
  | immOrOwnedMoveObject ref =>
    cases hprepare
    simp only [fetchRead] at hfetch
    -- an owned input that is not in the cache is a panic
    split_ifs at hfetch
    cases hfetch
    rfl
  | sharedMoveObject id initialSharedVersion mutable =>
    simp only [prepareRead] at hprepare
    rcases hlock : sharedLockOf locks id with _ | version <;> simp only [hlock] at hprepare
    · contradiction
    · by_cases hc : isCancelled version
      · simp only [hc, if_true, Except.ok.injEq] at hprepare
        subst hprepare
        cases hfetch
        simp [ObjectReadResultKind.inputVersion, expectedVersion, hlock, hc, Option.filter]
      · simp only [hc, Bool.false_eq_true, if_false, Except.ok.injEq] at hprepare
        subst hprepare
        -- fetched at the recorded version: found there, or deleted there
        have hv : r.object.inputVersion = some version := by
          simp only [fetchRead] at hfetch
          split_ifs at hfetch
          · cases hfetch
            rfl
          · rcases hdel : cache.deletedSharedObjectPreviousTxDigest id version with _ | dependency <;>
              simp only [hdel] at hfetch
            · contradiction
            · cases hfetch
              rfl
        simp [hv, expectedVersion, hlock, hc, Option.filter]

theorem filterMap_inputVersion_of_passes :
    ∀ {kinds : List InputObjectKind} {pending : List PendingRead} {objects : List ObjectReadResult},
      kinds.mapM (prepareRead cache (some locks)) = .ok pending → pending.mapM (fetchRead cache) = .ok objects →
      objects.filterMap (·.object.inputVersion) = kinds.filterMap (expectedVersion locks)
  | [], _, _, hpending, hobjects => by
    rw [mapM_except_nil_eq_ok] at hpending
    subst hpending
    rw [mapM_except_nil_eq_ok] at hobjects
    subst hobjects
    rfl
  | _ :: _, _, _, hpending, hobjects => by
    obtain ⟨p, ps, hp, hps, rfl⟩ := mapM_except_cons_eq_ok.mp hpending
    obtain ⟨r, rs, hr, hrs, rfl⟩ := mapM_except_cons_eq_ok.mp hobjects
    rw [List.filterMap_cons, List.filterMap_cons, inputVersion_eq_expectedVersion hp hr,
      filterMap_inputVersion_of_passes hps hrs]

theorem filterMap_inputVersion {kinds : List InputObjectKind} {objects : List ObjectReadResult}
    (h : readObjectsForExecution cache (some locks) kinds = .ok objects) :
    objects.filterMap (·.object.inputVersion) = kinds.filterMap (expectedVersion locks) := by
  simp only [readObjectsForExecution, except_bind_eq_ok] at h
  obtain ⟨pending, hpending, hobjects⟩ := h
  exact filterMap_inputVersion_of_passes hpending hobjects

end Loader

theorem mem_filterMap_expectedVersion {locks : List (ℕ × ℕ)} {kinds : List InputObjectKind} {x : ℕ} :
    x ∈ kinds.filterMap (expectedVersion locks) ↔
      x ∈ (kinds.filterMap InputObjectKind.nonSharedKey).map ObjectKey.version ∨
        ∃ so ∈ kinds.filterMap InputObjectKind.sharedInput,
          (sharedLockOf locks so.id).filter (fun v => !isCancelled v) = some x := by
  simp only [List.mem_filterMap, List.mem_map]
  constructor
  · rintro ⟨k, hk, hx⟩
    cases k with
    | movePackage id => simp [expectedVersion] at hx
    | immOrOwnedMoveObject ref =>
      exact .inl ⟨ref.toKey, ⟨_, hk, rfl⟩, by simpa [expectedVersion, ObjectRef.toKey] using hx⟩
    | sharedMoveObject id initialSharedVersion mutable =>
      exact .inr ⟨⟨id, initialSharedVersion, mutable⟩, ⟨_, hk, rfl⟩, hx⟩
  · rintro (⟨key, ⟨k, hk, hkey⟩, rfl⟩ | ⟨so, ⟨k, hk, hso⟩, hx⟩)
    · cases k <;> simp [InputObjectKind.nonSharedKey] at hkey
      subst hkey
      exact ⟨_, hk, rfl⟩
    · cases k <;> simp [InputObjectKind.sharedInput] at hso
      subst hso
      exact ⟨_, hk, hx⟩

theorem sharedLockOf_assigned {shared : List SharedInputObject} {f : ℕ → ℕ} {so : SharedInputObject}
    (hso : so ∈ shared) : sharedLockOf (shared.map fun so => (so.id, f so.id)) so.id = some (f so.id) := by
  rw [sharedLockOf, ← List.map_reverse]
  exact lookup_assigned (List.mem_reverse.mpr hso)

theorem nonSharedKeys_eq {tx : TransactionData} {nonShared : List ObjectKey} {kinds : List InputObjectKind}
    (hk : transactionNonSharedInputObjectKeys tx = .ok nonShared) (hkinds : tx.inputObjects = .ok kinds) :
    nonShared = kinds.filterMap InputObjectKind.nonSharedKey := by
  obtain ⟨objects, hobjects, rfl⟩ := TransactionData.inputObjects_of_nonSharedKeys hk
  rw [hobjects, Except.ok.injEq] at hkinds
  rw [hkinds]

theorem map_version_receivingKeys (tx : TransactionData) :
    (transactionReceivingObjectKeys tx).map ObjectKey.version = tx.receivingObjects.map ObjectRef.version := by
  simp [transactionReceivingObjectKeys, ObjectRef.toKey, Function.comp_def]

theorem exists_sharedLock_assigned_iff {shared : List SharedInputObject} {next : ℕ → Option ℕ} {x : ℕ}
    (hsome : ∀ so ∈ shared, (next so.id).isSome) (hnext : ∀ id v, next id = some v → v ≤ MAX) :
    (∃ so ∈ shared, (sharedLockOf (shared.map fun so => (so.id, (next so.id).getD 0)) so.id).filter
        (fun v => !isCancelled v) = some x) ↔
      x ∈ (shared.map fun so => (so.id, (next so.id).getD 0)).map Prod.snd := by
  have hread : ∀ so ∈ shared, (sharedLockOf (shared.map fun so => (so.id, (next so.id).getD 0)) so.id).filter
      (fun v => !isCancelled v) = some ((next so.id).getD 0) := by
    intro so hso
    obtain ⟨v, hv⟩ := Option.isSome_iff_exists.mp (hsome so hso)
    rw [sharedLockOf_assigned (f := fun id => (next id).getD 0) hso, hv, Option.getD_some]
    simp [Option.filter, not_isCancelled_of_le (hnext so.id v hv)]
  simp only [List.map_map, List.mem_map, Function.comp_def]
  constructor
  · rintro ⟨so, hso, hx⟩
    rw [hread so hso, Option.some.injEq] at hx
    exact ⟨so, hso, hx⟩
  · rintro ⟨so, hso, rfl⟩
    exact ⟨so, hso, hread so hso⟩

theorem not_exists_sharedLock_cancelled {shared : List SharedInputObject}
    {reason : CancelConsensusCertificateReason} {x : ℕ} :
    ¬∃ so ∈ shared, (sharedLockOf (shared.map fun so => (so.id, cancelledVersion reason so.id)) so.id).filter
        (fun v => !isCancelled v) = some x := by
  rintro ⟨so, hso, hx⟩
  rw [sharedLockOf_assigned (f := cancelledVersion reason) hso] at hx
  simp [Option.filter, isCancelled_cancelledVersion] at hx

/-- Consensus-assigned versions match execution.  For a certificate
processed by `assign_versions_for_certificate` from next versions that are
real versions, and loaded by the executor at the versions recorded for it,
the next version the manager computed is the Lamport timestamp execution
takes over the loaded inputs and the receiving objects; when the certificate
is not cancelled, each shared input it mutates moves to that version.  A
cancelled certificate's shared inputs count on neither side. -/
theorem lamportTimestamp_eq_assigned_nextVersion {cert : VerifiedExecutableTransaction}
    {next next' : ℕ → Option ℕ} {cancelledTxns : ℕ → Option CancelConsensusCertificateReason}
    {assigned : List (ℕ × ℕ)} {kinds : List InputObjectKind} {cache : ObjectCache}
    {objects : List ObjectReadResult}
    (hassign : assignVersionsForCertificate cert next cancelledTxns = .ok (assigned, next'))
    (hnext : ∀ id v, next id = some v → v ≤ MAX)
    (hkinds : cert.data.inputObjects = .ok kinds)
    (hload : readObjectsForExecution cache (some assigned) kinds = .ok objects) :
    ∃ keys nextVersion, assignedVersionsAndKeys cert next cancelledTxns = .ok (assigned, keys) ∧
      nextVersionOf keys = .ok nextVersion ∧
      lamportTimestamp objects cert.data.receivingObjects = some nextVersion ∧
      (cancelledTxns cert.digest = none → ∀ so ∈ cert.data.sharedInputObjects, so.mutable →
        next' so.id = some nextVersion) := by
  obtain ⟨keys, nextVersion, hak, hnv, hnext'⟩ := assignVersionsForCertificate_eq_ok hassign
  obtain ⟨hlamport, -⟩ := nextVersionOf_eq_ok.mp hnv
  have hshared := TransactionData.sharedInputObjects_eq hkinds
  refine ⟨keys, nextVersion, hak, hnv, ?_, fun hc so hso hm => ?_⟩
  · rw [lamportTimestamp, filterMap_inputVersion hload, ← hlamport]
    apply lamportIncrement_congr
    intro x
    rw [List.mem_append, mem_filterMap_expectedVersion, hshared]
    -- both sides take the owned inputs and the receiving objects; they differ only in the shared part
    rcases hc : cancelledTxns cert.digest with _ | reason
    · obtain ⟨nonShared, hk, hsome, rfl, rfl⟩ := assignedVersionsAndKeys_of_not_cancelled hc hak
      rw [exists_sharedLock_assigned_iff hsome hnext, nonSharedKeys_eq hk hkinds]
      simp only [List.map_append, List.mem_append, map_version_receivingKeys, map_version_keys,
        TransactionData.receivingObjects]
      tauto
    · obtain ⟨nonShared, hk, rfl, rfl⟩ := assignedVersionsAndKeys_of_cancelled hc hak
      simp only [not_exists_sharedLock_cancelled, or_false, nonSharedKeys_eq hk hkinds, List.map_append,
        List.mem_append, map_version_receivingKeys, TransactionData.receivingObjects]
  · rw [hnext', hc]
    simp only [Option.isNone_none, if_true]
    rw [if_pos (mem_mutableIds.mpr ⟨so, hso, hm, rfl⟩)]

/-- The next versions the mutating certificate of `versionCertificates` is
assigned from, and a cache that holds every object. -/
def versionNext (id : ℕ) : Option ℕ := if id = 20 then some 4 else none

def versionCache : ObjectCache := ⟨fun _ => true, fun _ => true, fun _ _ => none⟩

theorem lamportTimestamp_eq_assigned_nextVersion_mutator :
    ∃ assigned next' kinds objects,
      assignVersionsForCertificate versionMutator versionNext (fun _ => none) = .ok (assigned, next') ∧
      (∀ id v, versionNext id = some v → v ≤ MAX) ∧
      versionMutator.data.inputObjects = .ok kinds ∧
      readObjectsForExecution versionCache (some assigned) kinds = .ok objects ∧
      ∃ nextVersion, lamportTimestamp objects versionMutator.data.receivingObjects = some nextVersion ∧
        next' 20 = some nextVersion := by
  have hok : (assignVersionsForCertificate versionMutator versionNext (fun _ => none)).toBool := by decide
  have hfst : (assignVersionsForCertificate versionMutator versionNext (fun _ => none)).map Prod.fst =
      .ok [(20, 4)] := by decide
  rcases h : assignVersionsForCertificate versionMutator versionNext (fun _ => none) with p | ⟨assigned, next'⟩
  · rw [h] at hok
    contradiction
  · rw [h] at hfst
    cases hfst
    have hnext : ∀ id v, versionNext id = some v → v ≤ MAX := by
      intro id v hv
      unfold versionNext at hv
      split_ifs at hv
      cases hv
      decide
    have hkinds : versionMutator.data.inputObjects = .ok [.sharedMoveObject 20 3 true,
        .immOrOwnedMoveObject ⟨30, 5, 0⟩, .movePackage 2, .immOrOwnedMoveObject ⟨40, 7, 0⟩] := by decide
    have hload : readObjectsForExecution versionCache (some [(20, 4)]) [.sharedMoveObject 20 3 true,
        .immOrOwnedMoveObject ⟨30, 5, 0⟩, .movePackage 2, .immOrOwnedMoveObject ⟨40, 7, 0⟩] =
        .ok [⟨.sharedMoveObject 20 3 true, .object (.moveObject 4)⟩,
          ⟨.immOrOwnedMoveObject ⟨30, 5, 0⟩, .object (.moveObject 5)⟩, ⟨.movePackage 2, .object .package⟩,
          ⟨.immOrOwnedMoveObject ⟨40, 7, 0⟩, .object (.moveObject 7)⟩] := by decide
    obtain ⟨-, nextVersion, -, -, hts, hmut⟩ := lamportTimestamp_eq_assigned_nextVersion h hnext hkinds hload
    exact ⟨_, next', _, _, rfl, hnext, hkinds, hload, nextVersion, hts,
      hmut rfl ⟨20, 3, true⟩ (by decide) rfl⟩

end Iota.Core
