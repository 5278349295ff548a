import Mathlib
import Iota.Core.Transaction
import Iota.Lib.Register

/-! `SharedObjVerManager`
(`crates/iota-core/src/authority/shared_object_version_manager.rs`): the
versions at which the certificates of one consensus commit read their shared
objects.  The next version of each shared object is a map; a certificate
reads the current next version of each of its shared inputs and moves every
input it mutates to its own Lamport version.  A cancelled certificate gets a
reserved version for each shared input and moves nothing.

The epoch store is given by what `get_or_init_next_object_versions` reads:
the next versions already recorded for the epoch and the current version of
each object in the cache.  Storage errors are not modelled, and neither is
the write of newly initialised versions back to the epoch store. -/

namespace Iota.Core

open Iota.Lib SequenceNumber

inductive CancelConsensusCertificateReason
  | congestionOnObjects (congestedObjects : List ℕ)
  | dkgFailed
  deriving DecidableEq

/-- Where the version manager stops. -/
inductive VersionPanic
  /-- "randomness state object must have been added in get_or_init_versions()" -/
  | randomnessStateMissing
  /-- `assert_ne!` against `u64::MAX` in `increment` and `lamport_increment` -/
  | sequenceNumberOverflow
  /-- "Transaction input should have been verified" -/
  | inputNotVerified
  /-- `get(&obj.id()).unwrap()` on a shared input without a next version -/
  | nextVersionMissing (id : ℕ)
  /-- "Assigned version must be valid. Got {:?}" -/
  | invalidAssignedVersion (version : ℕ)
  /-- "Object must exist in shared_input_next_versions." -/
  | objectMustExist (id : ℕ)
  deriving DecidableEq

/-- `get_or_init_next_object_versions`: the next version recorded for the
epoch, or else the object's current version, or else its initial shared
version.  Collected into a map, a later entry for an id wins. -/
def getOrInitNextObjectVersions (nextSharedObjectVersions currentVersion : ℕ → Option ℕ)
    (objectsToInit : List (ℕ × ℕ)) : ℕ → Option ℕ :=
  objectsToInit.foldl (fun versions (id, initialVersion) =>
    let version := match nextSharedObjectVersions id with
      | some v => v
      | none => match currentVersion id with
        | some v => v
        | none => initialVersion
    Function.update versions id (some version)) (fun _ => none)

/-- `get_or_init_versions`: every shared input of the commit, and the
randomness object when randomness is generated, sorted and deduplicated. -/
def getOrInitVersions (transactions : List TransactionData) (nextSharedObjectVersions currentVersion : ℕ → Option ℕ)
    (randomnessObjInitialSharedVersion : ℕ) (generateRandomness : Bool) : ℕ → Option ℕ :=
  let sharedInputObjects := transactions.flatMap fun tx =>
    tx.sharedInputObjects.map fun so => (so.id, so.initialSharedVersion)
  let sharedInputObjects := if generateRandomness then
      sharedInputObjects ++ [(IOTA_RANDOMNESS_STATE_OBJECT_ID, randomnessObjInitialSharedVersion)]
    else sharedInputObjects
  getOrInitNextObjectVersions nextSharedObjectVersions currentVersion
    (sharedInputObjects.insertionSort (fun a b => a.1 < b.1 ∨ a.1 = b.1 ∧ a.2 ≤ b.2)).dedup

/-- The reserved version of a shared input of a cancelled certificate. -/
def cancelledVersion (reason : CancelConsensusCertificateReason) (id : ℕ) : ℕ :=
  match reason with
  | .congestionOnObjects congestedObjects => if id ∈ congestedObjects then CONGESTED else CANCELLED_READ
  | .dkgFailed => if id = IOTA_RANDOMNESS_STATE_OBJECT_ID then RANDOMNESS_UNAVAILABLE else CANCELLED_READ

/-- The current next version of each shared input. -/
def lookupNextVersions (next : ℕ → Option ℕ) (sharedInputObjects : List SharedInputObject) :
    Except VersionPanic (List (ℕ × ℕ)) :=
  sharedInputObjects.mapM fun so =>
    match next so.id with
    | some v => .ok (so.id, v)
    | none => .error (.nextVersionMissing so.id)

/-- `lamport_increment` over the input keys, and the assertion that the
result is a valid version. -/
def nextVersionOf (inputObjectKeys : List ObjectKey) : Except VersionPanic ℕ :=
  match lamportIncrement (inputObjectKeys.map ObjectKey.version) with
  | none => .error .sequenceNumberOverflow
  | some v => if isValid v then .ok v else .error (.invalidAssignedVersion v)

/-- `insert(id, version).expect(..)` for each id in turn. -/
def insertNextVersions (next : ℕ → Option ℕ) (ids : List ℕ) (version : ℕ) :
    Except VersionPanic (ℕ → Option ℕ) :=
  ids.foldlM (fun next id =>
    match next id with
    | some _ => .ok (Function.update next id (some version))
    | none => .error (.objectMustExist id)) next

/-- The versions assigned to the shared inputs, and the keys the next version
is computed from: the non-shared inputs, the receiving objects and, unless the
certificate is cancelled, the shared inputs at their assigned versions. -/
def assignedVersionsAndKeys (cert : VerifiedExecutableTransaction) (next : ℕ → Option ℕ)
    (cancelledTxns : ℕ → Option CancelConsensusCertificateReason) :
    Except VersionPanic (List (ℕ × ℕ) × List ObjectKey) := do
  let sharedInputObjects := cert.data.sharedInputObjects
  let inputObjectKeys ← match transactionNonSharedInputObjectKeys cert.data with
    | .ok keys => pure keys
    | .error _ => throw .inputNotVerified
  let inputObjectKeys := inputObjectKeys ++ transactionReceivingObjectKeys cert.data
  match cancelledTxns cert.digest with
  | some reason =>
    -- the new Lamport version does not depend on any shared object
    pure (sharedInputObjects.map fun so => (so.id, cancelledVersion reason so.id), inputObjectKeys)
  | none => do
    let assignedVersions ← lookupNextVersions next sharedInputObjects
    pure (assignedVersions, inputObjectKeys ++ assignedVersions.map fun (id, v) => ⟨id, v⟩)

/-- The ids of the mutable shared inputs: the source zips the assigned
versions, which follow the shared inputs, with their mutability. -/
def mutableIds (sharedInputObjects : List SharedInputObject) : List ℕ :=
  (sharedInputObjects.filter (·.mutable)).map (·.id)

def assignVersionsForCertificate (cert : VerifiedExecutableTransaction) (next : ℕ → Option ℕ)
    (cancelledTxns : ℕ → Option CancelConsensusCertificateReason) :
    Except VersionPanic (List (ℕ × ℕ) × (ℕ → Option ℕ)) := do
  let (assignedVersions, inputObjectKeys) ← assignedVersionsAndKeys cert next cancelledTxns
  let nextVersion ← nextVersionOf inputObjectKeys
  if (cancelledTxns cert.digest).isNone then
    let next ← insertNextVersions next (mutableIds cert.data.sharedInputObjects) nextVersion
    pure (assignedVersions, next)
  else pure (assignedVersions, next)

abbrev AssignedTxAndVersions := List (TransactionKey × List (ℕ × ℕ))

structure ConsensusSharedObjVerAssignment where
  sharedInputNextVersions : ℕ → Option ℕ
  assignedVersions : AssignedTxAndVersions

/-- The randomness object moves to its next version before any certificate
reads it. -/
def assignRandomnessVersion (epoch : ℕ) (next : ℕ → Option ℕ) (randomnessRound : Option ℕ) :
    Except VersionPanic ((ℕ → Option ℕ) × AssignedTxAndVersions) :=
  match randomnessRound with
  | none => .ok (next, [])
  | some round =>
    match next IOTA_RANDOMNESS_STATE_OBJECT_ID with
    | none => .error .randomnessStateMissing
    | some version =>
      match increment version with
      | none => .error .sequenceNumberOverflow
      | some bumped =>
        .ok (Function.update next IOTA_RANDOMNESS_STATE_OBJECT_ID (some bumped),
          [(.randomnessRound epoch round, [(IOTA_RANDOMNESS_STATE_OBJECT_ID, version)])])

/-- The loop over the certificates; those without a shared input are skipped. -/
def assignVersionsForCertificates (cancelledTxns : ℕ → Option CancelConsensusCertificateReason)
    (certificates : List VerifiedExecutableTransaction) (next : ℕ → Option ℕ)
    (assignedVersions : AssignedTxAndVersions) :
    Except VersionPanic ((ℕ → Option ℕ) × AssignedTxAndVersions) :=
  certificates.foldlM (fun (next, assignedVersions) cert =>
    if !cert.data.containsSharedObject then .ok (next, assignedVersions)
    else do
      let (certAssignedVersions, next) ← assignVersionsForCertificate cert next cancelledTxns
      pure (next, assignedVersions ++ [(cert.key, certAssignedVersions)])) (next, assignedVersions)

/-- What the epoch store holds for `get_or_init_next_object_versions`. -/
structure VersionStore where
  epoch : ℕ
  nextSharedObjectVersions : ℕ → Option ℕ
  currentVersion : ℕ → Option ℕ
  randomnessObjInitialSharedVersion : ℕ

def assignVersionsFromConsensus (store : VersionStore) (certificates : List VerifiedExecutableTransaction)
    (randomnessRound : Option ℕ) (cancelledTxns : ℕ → Option CancelConsensusCertificateReason) :
    Except VersionPanic ConsensusSharedObjVerAssignment := do
  let sharedInputNextVersions := getOrInitVersions (certificates.map (·.data)) store.nextSharedObjectVersions
    store.currentVersion store.randomnessObjInitialSharedVersion randomnessRound.isSome
  let (sharedInputNextVersions, assignedVersions) ←
    assignRandomnessVersion store.epoch sharedInputNextVersions randomnessRound
  let (sharedInputNextVersions, assignedVersions) ←
    assignVersionsForCertificates cancelledTxns certificates sharedInputNextVersions assignedVersions
  pure ⟨sharedInputNextVersions, assignedVersions⟩

/-! ### One certificate

Each helper gets the lemma that says what it returns; the certificate's step
is then read off them. -/

section Certificate

variable {cert : VerifiedExecutableTransaction} {next next' : ℕ → Option ℕ}
  {cancelledTxns : ℕ → Option CancelConsensusCertificateReason}

theorem lookupNextVersions_eq_ok {shared : List SharedInputObject} {assigned : List (ℕ × ℕ)} :
    lookupNextVersions next shared = .ok assigned ↔
      (∀ so ∈ shared, (next so.id).isSome) ∧ assigned = shared.map fun so => (so.id, (next so.id).getD 0) := by
  induction shared generalizing assigned with
  | nil =>
    simp only [lookupNextVersions, List.mapM_nil, except_pure_eq_ok, List.not_mem_nil, false_implies,
      implies_true, List.map_nil, true_and]
    exact eq_comm
  | cons so shared ih =>
    simp only [lookupNextVersions, List.mapM_cons, except_bind_eq_ok, except_pure_eq_ok] at ih ⊢
    rcases hso : next so.id with _ | v
    · simp [hso]
    · simp only [hso, Except.ok.injEq, exists_eq_left', ih, List.forall_mem_cons, Option.isSome_some,
        true_and, List.map_cons, Option.getD_some]
      constructor
      · rintro ⟨rest, ⟨hrest, rfl⟩, rfl⟩
        exact ⟨hrest, rfl⟩
      · rintro ⟨hrest, rfl⟩
        exact ⟨_, ⟨hrest, rfl⟩, rfl⟩

theorem nextVersionOf_eq_ok {keys : List ObjectKey} {v : ℕ} :
    nextVersionOf keys = .ok v ↔ lamportIncrement (keys.map ObjectKey.version) = some v ∧ isValid v := by
  unfold nextVersionOf
  rcases lamportIncrement (keys.map ObjectKey.version) with _ | w
  · simp
  · by_cases hw : isValid w
    · simp only [hw, if_true, Except.ok.injEq, Option.some.injEq]
      constructor
      · rintro rfl
        exact ⟨rfl, hw⟩
      · rintro ⟨rfl, -⟩
        rfl
    · simp only [hw, Bool.false_eq_true, if_false, reduceCtorEq, false_iff, not_and, Option.some.injEq]
      rintro rfl
      exact hw

theorem insertNextVersions_eq {ids : List ℕ} (hids : ∀ id ∈ ids, (next id).isSome) (v : ℕ) :
    insertNextVersions next ids v = .ok fun id => if id ∈ ids then some v else next id := by
  induction ids generalizing next with
  | nil => rfl
  | cons id ids ih =>
    obtain ⟨w, hw⟩ := Option.isSome_iff_exists.mp (hids id List.mem_cons_self)
    have hrest : ∀ i ∈ ids, (Function.update next id (some v) i).isSome := by
      intro i hi
      by_cases hi' : i = id
      · simp [hi']
      · simpa [Function.update_of_ne hi'] using hids i (List.mem_cons_of_mem _ hi)
    simp only [insertNextVersions, List.foldlM_cons, hw, except_ok_bind] at ih ⊢
    rw [ih hrest]
    congr 1
    funext i
    by_cases hi : i = id <;> simp [hi]

variable {assigned : List (ℕ × ℕ)} {keys : List ObjectKey}

theorem assignedVersionsAndKeys_of_cancelled {reason : CancelConsensusCertificateReason}
    (hc : cancelledTxns cert.digest = some reason)
    (h : assignedVersionsAndKeys cert next cancelledTxns = .ok (assigned, keys)) :
    ∃ nonShared, transactionNonSharedInputObjectKeys cert.data = .ok nonShared ∧
      assigned = cert.data.sharedInputObjects.map (fun so => (so.id, cancelledVersion reason so.id)) ∧
      keys = nonShared ++ transactionReceivingObjectKeys cert.data := by
  unfold assignedVersionsAndKeys at h
  rcases hk : transactionNonSharedInputObjectKeys cert.data with e | nonShared <;> rw [hk] at h
  · simp at h
  · simp only [except_pure_bind, hc, except_pure_eq_ok, Prod.mk.injEq] at h
    exact ⟨nonShared, rfl, h.1.symm, h.2.symm⟩

theorem assignedVersionsAndKeys_of_not_cancelled (hc : cancelledTxns cert.digest = none)
    (h : assignedVersionsAndKeys cert next cancelledTxns = .ok (assigned, keys)) :
    ∃ nonShared, transactionNonSharedInputObjectKeys cert.data = .ok nonShared ∧
      (∀ so ∈ cert.data.sharedInputObjects, (next so.id).isSome) ∧
      assigned = cert.data.sharedInputObjects.map (fun so => (so.id, (next so.id).getD 0)) ∧
      keys = nonShared ++ transactionReceivingObjectKeys cert.data ++ assigned.map fun (id, v) => ⟨id, v⟩ := by
  unfold assignedVersionsAndKeys at h
  rcases hk : transactionNonSharedInputObjectKeys cert.data with e | nonShared <;> rw [hk] at h
  · simp at h
  · simp only [except_pure_bind, hc, except_bind_eq_ok, except_pure_eq_ok, Prod.mk.injEq] at h
    obtain ⟨assigned', hlookup, rfl, rfl⟩ := h
    obtain ⟨hsome, rfl⟩ := Iff.mp lookupNextVersions_eq_ok hlookup
    exact ⟨nonShared, rfl, hsome, rfl, rfl⟩

theorem assignVersionsForCertificate_eq_ok (h : assignVersionsForCertificate cert next cancelledTxns = .ok (assigned, next')) :
    ∃ keys nextVersion, assignedVersionsAndKeys cert next cancelledTxns = .ok (assigned, keys) ∧
      nextVersionOf keys = .ok nextVersion ∧
      next' = if (cancelledTxns cert.digest).isNone then
        fun id => if id ∈ mutableIds cert.data.sharedInputObjects then some nextVersion else next id
      else next := by
  unfold assignVersionsForCertificate at h
  simp only [except_bind_eq_ok] at h
  obtain ⟨⟨assigned', keys⟩, hak, nextVersion, hnext, hwrite⟩ := h
  rcases hc : cancelledTxns cert.digest with _ | reason
  · obtain ⟨-, -, hsome, -⟩ := assignedVersionsAndKeys_of_not_cancelled hc hak
    -- every mutable input has a next version, so the writes cannot stop
    have hids : ∀ id ∈ mutableIds cert.data.sharedInputObjects, (next id).isSome := by
      intro id hid
      obtain ⟨so, hso, rfl⟩ := List.mem_map.mp hid
      exact hsome so (List.mem_filter.mp hso).1
    simp only [hc, Option.isNone_none, if_true, insertNextVersions_eq hids] at hwrite ⊢
    obtain ⟨rfl, rfl⟩ := hwrite
    exact ⟨keys, nextVersion, hak, hnext, rfl⟩
  · simp only [hc, Option.isNone_some, Bool.false_eq_true, if_false, except_pure_eq_ok,
      Prod.mk.injEq] at hwrite ⊢
    obtain ⟨rfl, rfl⟩ := hwrite
    exact ⟨keys, nextVersion, hak, hnext, rfl⟩

end Certificate

/-! ### Along the certificates

For one shared object, the certificates that are not cancelled are accesses
to a versioned register (`Iota.Lib.Sequenced`): each reads the object's next
version, and one that mutates it writes its own Lamport version. -/

/-- The Lamport version of a certificate whose shared inputs were assigned
`assigned`: one above the versions of its non-shared inputs, its receiving
objects and its shared inputs. -/
def lamportVersion (cert : VerifiedExecutableTransaction) (assigned : List (ℕ × ℕ)) : Option ℕ :=
  match transactionNonSharedInputObjectKeys cert.data with
  | .ok keys =>
    lamportIncrement ((keys ++ transactionReceivingObjectKeys cert.data).map ObjectKey.version ++ assigned.map Prod.snd)
  | .error _ => none

/-- The access of a certificate to object `o`, if it is not cancelled and
has `o` among its shared inputs. -/
def certUses (cancelledTxns : ℕ → Option CancelConsensusCertificateReason) (o : ℕ)
    (cert : VerifiedExecutableTransaction) (assigned : List (ℕ × ℕ)) : List (Access ℕ) :=
  if (cancelledTxns cert.digest).isNone then
    ((cert.data.sharedInputObjects.find? (·.id == o)).map fun so =>
      (⟨(assigned.lookup o).getD 0, so.mutable, lamportVersion cert assigned⟩ : Access ℕ)).toList
  else []

/-- The accesses to object `o` along certificates and their assigned versions. -/
def usesOf (cancelledTxns : ℕ → Option CancelConsensusCertificateReason) (o : ℕ)
    (assignments : List (VerifiedExecutableTransaction × List (ℕ × ℕ))) : List (Access ℕ) :=
  assignments.flatMap fun (cert, assigned) => certUses cancelledTxns o cert assigned

theorem isCancelled_cancelledVersion (reason : CancelConsensusCertificateReason) (id : ℕ) :
    isCancelled (cancelledVersion reason id) := by
  rw [isCancelled_iff]
  cases reason with
  | congestionOnObjects congestedObjects => by_cases h : id ∈ congestedObjects <;> simp [cancelledVersion, h]
  | dkgFailed => by_cases h : id = IOTA_RANDOMNESS_STATE_OBJECT_ID <;> simp [cancelledVersion, h]

theorem mem_mutableIds {shared : List SharedInputObject} {o : ℕ} :
    o ∈ mutableIds shared ↔ ∃ so ∈ shared, so.mutable ∧ so.id = o := by
  simp [mutableIds, and_assoc]

theorem lookup_assigned {shared : List SharedInputObject} {f : ℕ → ℕ} {so : SharedInputObject}
    (hso : so ∈ shared) : (shared.map fun so => (so.id, f so.id)).lookup so.id = some (f so.id) := by
  induction shared with
  | nil => simp at hso
  | cons so' shared ih =>
    by_cases h : so.id = so'.id
    · simp [h]
    · have hso' : so ∈ shared := (List.mem_cons.mp hso).resolve_left (fun he => h (he ▸ rfl))
      have hne : (so.id == so'.id) = false := by simpa using h
      simp [List.lookup, hne, ih hso']

theorem map_version_keys (assigned : List (ℕ × ℕ)) :
    (assigned.map fun (id, v) => (⟨id, v⟩ : ObjectKey)).map ObjectKey.version = assigned.map Prod.snd := by
  simp [Function.comp_def]

section Certificate

variable {cert : VerifiedExecutableTransaction} {next next' : ℕ → Option ℕ}
  {cancelledTxns : ℕ → Option CancelConsensusCertificateReason} {assigned : List (ℕ × ℕ)}

theorem sequenced_certUses (h : assignVersionsForCertificate cert next cancelledTxns = .ok (assigned, next'))
    (o : ℕ) : Sequenced (next o) (next' o) (certUses cancelledTxns o cert assigned) := by
  obtain ⟨keys, nextVersion, hak, hnv, rfl⟩ := assignVersionsForCertificate_eq_ok h
  rcases hc : cancelledTxns cert.digest with _ | reason
  · obtain ⟨nonShared, hk, hsome, rfl, rfl⟩ := assignedVersionsAndKeys_of_not_cancelled hc hak
    obtain ⟨hlamport, -⟩ := Iff.mp nextVersionOf_eq_ok hnv
    obtain ⟨objects, hobjects, -⟩ := TransactionData.inputObjects_of_nonSharedKeys hk
    have hnodup := TransactionData.nodup_sharedInputObjects hobjects
    simp only [certUses, hc, Option.isNone_none, if_true]
    rcases hfind : cert.data.sharedInputObjects.find? (·.id == o) with _ | so
    · -- `o` is not a shared input: nothing reads it and nothing writes it
      have hnot : o ∉ mutableIds cert.data.sharedInputObjects := by
        rw [mem_mutableIds]
        rintro ⟨so, hso, -, rfl⟩
        exact List.find?_eq_none.mp hfind so hso (by simp)
      simp [hfind, hnot]
    · have hso : so ∈ cert.data.sharedInputObjects := List.mem_of_find?_eq_some hfind
      have hid : so.id = o := by simpa using List.find?_some hfind
      subst hid
      -- the shared inputs name each object once, so `so` is the only one with this id
      have hmut : so.id ∈ mutableIds cert.data.sharedInputObjects ↔ so.mutable := by
        rw [mem_mutableIds]
        constructor
        · rintro ⟨so', hso', hm, hid'⟩
          rwa [← List.inj_on_of_nodup_map hnodup hso' hso hid']
        · exact fun hm => ⟨so, hso, hm, rfl⟩
      have hlam : lamportVersion cert (cert.data.sharedInputObjects.map fun so => (so.id, (next so.id).getD 0)) =
          some nextVersion := by
        rw [lamportVersion, hk, ← hlamport, List.map_append, map_version_keys]
      obtain ⟨v, hv⟩ := Option.isSome_iff_exists.mp (hsome so hso)
      have hlookup : (cert.data.sharedInputObjects.map fun so => (so.id, (next so.id).getD 0)).lookup so.id =
          some v := by
        rw [lookup_assigned (f := fun id => (next id).getD 0) hso, hv, Option.getD_some]
      simp only [hfind, Option.map_some, Option.toList_some, Sequenced.cons_iff, hlookup, Option.getD_some]
      refine ⟨hv, ⟨nextVersion, hlam, ?_⟩, ?_⟩
      · -- the version read is among the keys the Lamport version is taken over
        apply lt_of_lamportIncrement hlamport
        rw [List.map_append, map_version_keys]
        exact List.mem_append_right _ (List.mem_map.mpr ⟨_, List.mem_map_of_mem hso, by simp [hv]⟩)
      · cases hm : so.mutable
        · simp [hmut, hm]
        · simp [hmut, hm, hlam]
  · simp [certUses, hc]

end Certificate

theorem assignVersionsForCertificates_eq_ok {cancelledTxns : ℕ → Option CancelConsensusCertificateReason} :
    ∀ {certificates : List VerifiedExecutableTransaction} {next final : ℕ → Option ℕ}
      {pre out : AssignedTxAndVersions},
      assignVersionsForCertificates cancelledTxns certificates next pre = .ok (final, out) →
      ∃ assignments : List (VerifiedExecutableTransaction × List (ℕ × ℕ)),
        out = pre ++ assignments.map (fun p => (p.1.key, p.2)) ∧
        assignments.map Prod.fst = certificates.filter (·.data.containsSharedObject) ∧
        (∀ p ∈ assignments, ∀ reason, cancelledTxns p.1.digest = some reason →
          p.2 = p.1.data.sharedInputObjects.map fun so => (so.id, cancelledVersion reason so.id)) ∧
        ∀ o, Sequenced (next o) (final o) (usesOf cancelledTxns o assignments)
  | [], next, final, pre, out, h => by
    simp only [assignVersionsForCertificates, List.foldlM_nil, except_pure_eq_ok, Prod.mk.injEq] at h
    obtain ⟨rfl, rfl⟩ := h
    exact ⟨[], by simp, rfl, by simp, fun o => by simp [usesOf]⟩
  | cert :: certificates, next, final, pre, out, h => by
    simp only [assignVersionsForCertificates, List.foldlM_cons] at h
    by_cases hshared : cert.data.containsSharedObject
    · simp only [hshared, Bool.not_true, Bool.false_eq_true, if_false, except_bind_eq_ok] at h
      obtain ⟨⟨next₁, pre₁⟩, ⟨⟨assigned, next₂⟩, hcert, hacc⟩, hrest⟩ := h
      simp only [except_pure_eq_ok, Prod.mk.injEq] at hacc
      obtain ⟨rfl, rfl⟩ := hacc
      obtain ⟨assignments, rfl, hcerts, hcancelled, hseq⟩ := assignVersionsForCertificates_eq_ok hrest
      refine ⟨(cert, assigned) :: assignments, by simp, by simp [hshared, hcerts], ?_, ?_⟩
      · rintro p hp reason hreason
        rcases List.mem_cons.mp hp with rfl | hp
        · obtain ⟨keys, -, hak, -⟩ := assignVersionsForCertificate_eq_ok hcert
          exact (assignedVersionsAndKeys_of_cancelled hreason hak).choose_spec.2.1
        · exact hcancelled p hp reason hreason
      · intro o
        exact (sequenced_certUses hcert o).append (hseq o)
    · simp only [hshared, Bool.not_false, if_true, except_ok_bind] at h
      obtain ⟨assignments, rfl, hcerts, hcancelled, hseq⟩ := assignVersionsForCertificates_eq_ok h
      exact ⟨assignments, rfl, by simp [hshared, hcerts], hcancelled, hseq⟩

theorem assignRandomnessVersion_eq_ok {epoch : ℕ} {next start : ℕ → Option ℕ} {randomnessRound : Option ℕ}
    {pre : AssignedTxAndVersions} (h : assignRandomnessVersion epoch next randomnessRound = .ok (start, pre)) :
    (randomnessRound = none → start = next ∧ pre = []) ∧
      ∀ round, randomnessRound = some round → ∃ version, next IOTA_RANDOMNESS_STATE_OBJECT_ID = some version ∧
        start = Function.update next IOTA_RANDOMNESS_STATE_OBJECT_ID (some (version + 1)) ∧
        pre = [(.randomnessRound epoch round, [(IOTA_RANDOMNESS_STATE_OBJECT_ID, version)])] := by
  cases randomnessRound with
  | none =>
    simp only [assignRandomnessVersion, Except.ok.injEq, Prod.mk.injEq] at h
    exact ⟨fun _ => ⟨h.1.symm, h.2.symm⟩, fun _ hr => nomatch hr⟩
  | some round =>
    refine ⟨fun hr => (nomatch hr), fun r hr => ?_⟩
    cases hr
    unfold assignRandomnessVersion increment at h
    rcases hv : next IOTA_RANDOMNESS_STATE_OBJECT_ID with _ | version <;> simp only [hv] at h
    · contradiction
    · split_ifs at h
      simp only [Except.ok.injEq, Prod.mk.injEq] at h
      exact ⟨version, rfl, h.1.symm, h.2.symm⟩

/-- Shared-object version sequencing over one consensus commit.  The
randomness object moves to its next version once, before any certificate.
Each certificate with a shared input gets one entry, in order; a cancelled
one gets only reserved versions.  For every object, the certificates that are
not cancelled read it one after another: the first reads the next version it
started from, each later one reads the previous one's Lamport version when
that one mutated the object and the same version when it only read it, every
Lamport version is above the version its certificate read, so the versions
read never go down; and the final next version is the Lamport version of the
last mutating certificate, or the starting one. -/
theorem assignVersionsFromConsensus_sequencing {store : VersionStore}
    {certificates : List VerifiedExecutableTransaction} {randomnessRound : Option ℕ}
    {cancelledTxns : ℕ → Option CancelConsensusCertificateReason} {out : ConsensusSharedObjVerAssignment}
    (h : assignVersionsFromConsensus store certificates randomnessRound cancelledTxns = .ok out) :
    ∃ (start : ℕ → Option ℕ) (pre : AssignedTxAndVersions)
      (assignments : List (VerifiedExecutableTransaction × List (ℕ × ℕ))),
      (randomnessRound = none →
        start = getOrInitVersions (certificates.map (·.data)) store.nextSharedObjectVersions store.currentVersion
          store.randomnessObjInitialSharedVersion false ∧ pre = []) ∧
      (∀ round, randomnessRound = some round → ∃ version,
        getOrInitVersions (certificates.map (·.data)) store.nextSharedObjectVersions store.currentVersion
          store.randomnessObjInitialSharedVersion true IOTA_RANDOMNESS_STATE_OBJECT_ID = some version ∧
        start = Function.update (getOrInitVersions (certificates.map (·.data)) store.nextSharedObjectVersions
          store.currentVersion store.randomnessObjInitialSharedVersion true) IOTA_RANDOMNESS_STATE_OBJECT_ID
            (some (version + 1)) ∧
        pre = [(.randomnessRound store.epoch round, [(IOTA_RANDOMNESS_STATE_OBJECT_ID, version)])]) ∧
      out.assignedVersions = pre ++ assignments.map (fun p => (p.1.key, p.2)) ∧
      assignments.map Prod.fst = certificates.filter (·.data.containsSharedObject) ∧
      (∀ p ∈ assignments, ∀ reason, cancelledTxns p.1.digest = some reason → ∀ x ∈ p.2, isCancelled x.2) ∧
      ∀ o, (usesOf cancelledTxns o assignments).IsChain Access.Follows ∧
        (usesOf cancelledTxns o assignments).IsChain (fun u v => u.read ≤ v.read) ∧
        (∀ u ∈ (usesOf cancelledTxns o assignments).head?, start o = some u.read) ∧
        (∀ u ∈ usesOf cancelledTxns o assignments, ∃ s, u.stamp = some s ∧ u.read < s) ∧
        out.sharedInputNextVersions o = lastWrite (start o) (usesOf cancelledTxns o assignments) := by
  simp only [assignVersionsFromConsensus, except_bind_eq_ok, except_pure_eq_ok] at h
  obtain ⟨⟨start, pre⟩, hrandom, ⟨final, assignedVersions⟩, hloop, rfl⟩ := h
  obtain ⟨hnone, hsome⟩ := assignRandomnessVersion_eq_ok hrandom
  obtain ⟨assignments, hout, hcerts, hcancelled, hseq⟩ := assignVersionsForCertificates_eq_ok hloop
  refine ⟨start, pre, assignments, fun hr => ?_, fun round hr => ?_, hout, hcerts, ?_, fun o =>
    ⟨(hseq o).isChain, (hseq o).isChain_read_le, (hseq o).head, (hseq o).stamp_gt, (hseq o).final_eq⟩⟩
  · subst hr
    exact hnone rfl
  · subst hr
    exact hsome round rfl
  · intro p hp reason hreason x hx
    rw [hcancelled p hp reason hreason] at hx
    obtain ⟨so, -, rfl⟩ := List.mem_map.mp hx
    exact isCancelled_cancelledVersion reason so.id

/-- A certificate that mutates shared object 20, with an owned input and a
gas coin. -/
def versionMutator : VerifiedExecutableTransaction :=
  ⟨1, ⟨.programmableTransaction [.object (.sharedObject 20 3 true), .object (.immOrOwnedObject ⟨30, 5, 0⟩)] [2],
    [⟨40, 7, 0⟩]⟩⟩

/-- A commit of three certificates on shared object 20: one mutates it, one
reads it, and one is cancelled for congestion on it; randomness is generated. -/
def versionCertificates : List VerifiedExecutableTransaction :=
  [versionMutator,
    ⟨2, ⟨.programmableTransaction [.object (.sharedObject 20 3 false)] [], [⟨41, 2, 0⟩]⟩⟩,
    ⟨3, ⟨.programmableTransaction [.object (.sharedObject 20 3 true)] [], [⟨42, 9, 0⟩]⟩⟩]

def versionStore : VersionStore := ⟨0, fun _ => none, fun id => if id = 20 then some 4 else none, 1⟩

def versionCancelled (digest : ℕ) : Option CancelConsensusCertificateReason :=
  if digest = 3 then some (.congestionOnObjects [20]) else none

theorem assignVersionsFromConsensus_sequencing_commit :
    ∃ out, assignVersionsFromConsensus versionStore versionCertificates (some 4) versionCancelled = .ok out ∧
      ∃ (start : ℕ → Option ℕ) (assignments : List (VerifiedExecutableTransaction × List (ℕ × ℕ))),
        (usesOf versionCancelled 20 assignments).IsChain (fun u v => u.read ≤ v.read) ∧
        out.sharedInputNextVersions 20 = lastWrite (start 20) (usesOf versionCancelled 20 assignments) := by
  have hok : (assignVersionsFromConsensus versionStore versionCertificates (some 4) versionCancelled).toBool := by
    decide
  rcases h : assignVersionsFromConsensus versionStore versionCertificates (some 4) versionCancelled with p | out
  · rw [h] at hok
    contradiction
  · obtain ⟨start, -, assignments, -, -, -, -, -, hobj⟩ := assignVersionsFromConsensus_sequencing h
    exact ⟨out, rfl, start, assignments, (hobj 20).2.1, (hobj 20).2.2.2.2⟩

/-- The mutating certificate reads version 4 and writes 8, one above its gas
coin; the reader reads 8, and the cancelled one gets `CONGESTED`. -/
example : (assignVersionsFromConsensus versionStore versionCertificates (some 4) versionCancelled).map
      (fun out => (out.assignedVersions, out.sharedInputNextVersions 20)) =
    .ok ([(.randomnessRound 0 4, [(8, 1)]), (.digest 1, [(20, 4)]), (.digest 2, [(20, 8)]),
      (.digest 3, [(20, CONGESTED)])], some 8) := by
  decide

end Iota.Core
