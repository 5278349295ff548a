import Mathlib
import Iota.Core.BaseTypes
import Iota.Lib.Except

/-! Executing a certificate from the client side. `AuthorityAggregator::process_certificate`
sends the certificate to every validator through a `SafeClient`, which checks each
response against the effects that validator signed, and folds the responses, in
the order they arrive, into a `ProcessCertificateState` until the signatures on
one effects digest reach a quorum.

Signatures are abstract: one names its authority and epoch, and verifies or does
not. Hashes are abstract too: effects are their own digest, and the digest of a
list of events and the reference of an object are parameters. -/

namespace Iota.Core.AuthorityAggregator

open Iota.Lib

/-- The fields of `TransactionEffects` the client reads. -/
structure TransactionEffects where
  transactionDigest : ℕ
  eventsDigest : Option ℕ
  /-- The references of `old_object_metadata()`. -/
  oldObjectMetadata : List ObjectRef
  /-- The references of `all_changed_objects()`. -/
  allChangedObjects : List ObjectRef
  deriving DecidableEq, Repr

structure TransactionEvents (Event : Type) where
  data : List Event
  deriving DecidableEq, Repr

structure AuthoritySignInfo (α : Type) where
  epoch : ℕ
  authority : α
  /-- Whether the signature verifies on the effects it signs. -/
  verifies : Bool
  deriving DecidableEq, Repr

structure SignedTransactionEffects (α : Type) where
  data : TransactionEffects
  authSig : AuthoritySignInfo α
  deriving DecidableEq, Repr

structure HandleCertificateResponseV1 (α Event Object : Type) where
  signedEffects : SignedTransactionEffects α
  events : Option (TransactionEvents Event)
  inputObjects : Option (List Object)
  outputObjects : Option (List Object)
  deriving DecidableEq, Repr

inductive IotaError (α : Type)
  | byzantineAuthoritySuspicion (authority : α) (reason : String)
  | stakeAggregatorRepeatedSigner (signer : α) (conflictingSig : Bool)
  | wrongEpoch (expectedEpoch actualEpoch : ℕ)
  | invalidAuthenticator
  | invalidSignature (error : String)
  | unknownSigner
  deriving DecidableEq, Repr

/-- The validators of an epoch and their voting power, which adds up to `10_000`.
`authority_index` finds the members; `weight` of an authority outside the
committee is `0`, as the binary search over `voting_rights` finds nothing. -/
structure Committee (α : Type) where
  epoch : ℕ
  weight : α → ℕ
  authorityIndex : α → Option ℕ
  weight_eq_zero_of_not_member : ∀ a, authorityIndex a = none → weight a = 0

def QUORUM_THRESHOLD : ℕ := 6667

def VALIDITY_THRESHOLD : ℕ := 3334

/-! ### The checks of `SafeClient` -/

section SafeClient

variable {α Event Object : Type}

/-- The reference a `HashMap` collected from `refs` keeps for `id`: a later
entry replaces an earlier one. -/
def lookupRef (refs : List ObjectRef) (id : ℕ) : Option ObjectRef := refs.reverse.find? (·.id == id)

variable (eventsDigest : TransactionEvents Event → ℕ) (computeObjectReference : Object → ObjectRef)

def checkEvents (address : α) : Option (TransactionEvents Event) → Option ℕ → Except (IotaError α) Unit
  | none, _ => pure ()
  | some events, none =>
    if events.data.isEmpty then pure ()
    else throw (.byzantineAuthoritySuspicion address "Returned events but no event digest present in the signed effects")
  | some events, some digest =>
    if eventsDigest events = digest then pure ()
    else throw (.byzantineAuthoritySuspicion address "Returned events don't match events digest in the signed effects")

/-- Every returned object has the reference the effects record for its id. -/
def checkObjects (address : α) (expected : List ObjectRef) (reason : String) :
    Option (List Object) → Except (IotaError α) Unit
  | none => pure ()
  | some objects => objects.forM fun object =>
    if lookupRef expected (computeObjectReference object).id = some (computeObjectReference object) then pure ()
    else throw (.byzantineAuthoritySuspicion address reason)

/-- Returned events agree with the digest the effects record. -/
def EventsMatch (digest : Option ℕ) (events : Option (TransactionEvents Event)) : Prop :=
  ∀ ev, events = some ev → digest = some (eventsDigest ev) ∨ digest = none ∧ ev.data = []

/-- Every returned object has the reference the effects record for its id. -/
def ObjectsMatch (expected : List ObjectRef) (objects : Option (List Object)) : Prop :=
  ∀ objs, objects = some objs →
    ∀ object ∈ objs, lookupRef expected (computeObjectReference object).id = some (computeObjectReference object)

/-- The events and objects returned with effects are the ones those effects record. -/
def ConsistentWith (effects : TransactionEffects) (events : Option (TransactionEvents Event))
    (inputObjects outputObjects : Option (List Object)) : Prop :=
  EventsMatch eventsDigest effects.eventsDigest events ∧
    ObjectsMatch computeObjectReference effects.oldObjectMetadata inputObjects ∧
    ObjectsMatch computeObjectReference effects.allChangedObjects outputObjects

theorem checkEvents_eq_ok {address : α} {events : Option (TransactionEvents Event)} {digest : Option ℕ} :
    checkEvents eventsDigest address events digest = .ok ⟨⟩ ↔ EventsMatch eventsDigest digest events := by
  rcases events with _ | events
  · simp only [EventsMatch, reduceCtorEq, false_implies, implies_true, iff_true]
    rfl
  · simp only [EventsMatch, Option.some.injEq, forall_eq']
    rcases digest with _ | digest <;> simp only [checkEvents]
    · split_ifs with hempty
      · simpa using hempty
      · simpa using hempty
    · split_ifs with hmatch
      · simp [hmatch]
      · simp [Ne.symm hmatch]

theorem checkObjects_eq_ok {address : α} {expected : List ObjectRef} {reason : String}
    {objects : Option (List Object)} :
    checkObjects computeObjectReference address expected reason objects = .ok ⟨⟩ ↔
      ObjectsMatch computeObjectReference expected objects := by
  rcases objects with _ | objects
  · simp only [ObjectsMatch, reduceCtorEq, false_implies, implies_true, iff_true]
    rfl
  · rw [checkObjects, forM_except_eq_ok]
    simp only [ObjectsMatch, Option.some.injEq, forall_eq']
    refine forall₂_congr fun object _ => ?_
    split_ifs with hmatch <;> simp [hmatch]

variable [DecidableEq α]

def checkSignedEffectsPlain (address : α) (digest : ℕ) (signedEffects : SignedTransactionEffects α) :
    Except (IotaError α) (SignedTransactionEffects α) :=
  if signedEffects.authSig.authority ≠ address then
    throw (.byzantineAuthoritySuspicion address "Unexpected validator address in the signed effects signature")
  else if signedEffects.data.transactionDigest ≠ digest then
    throw (.byzantineAuthoritySuspicion address "Unexpected tx digest in the signed effects")
  else pure signedEffects

/-- `SafeClient::verify_certificate_response_v1` of the client of validator `address`. -/
def verifyCertificateResponseV1 (address : α) (digest : ℕ) (response : HandleCertificateResponseV1 α Event Object) :
    Except (IotaError α) (HandleCertificateResponseV1 α Event Object) := do
  let signedEffects ← checkSignedEffectsPlain address digest response.signedEffects
  checkEvents eventsDigest address response.events signedEffects.data.eventsDigest
  checkObjects computeObjectReference address signedEffects.data.oldObjectMetadata
    "Returned input object that wasn't present in the signed effects" response.inputObjects
  checkObjects computeObjectReference address signedEffects.data.allChangedObjects
    "Returned output object that wasn't present in the signed effects" response.outputObjects
  pure { response with signedEffects }

/-- `SafeClient::handle_certificate_v1` of each validator, on what that
validator answered. -/
def safeClientResponses (digest : ℕ)
    (answers : List (α × Except (IotaError α) (HandleCertificateResponseV1 α Event Object))) :
    List (α × Except (IotaError α) (HandleCertificateResponseV1 α Event Object)) :=
  answers.map fun x => (x.1, x.2 >>= verifyCertificateResponseV1 eventsDigest computeObjectReference x.1 digest)

theorem checkSignedEffectsPlain_eq_ok {address : α} {digest : ℕ} {signedEffects signedEffects' : SignedTransactionEffects α} :
    checkSignedEffectsPlain address digest signedEffects = .ok signedEffects' ↔
      signedEffects' = signedEffects ∧ signedEffects.authSig.authority = address ∧
        signedEffects.data.transactionDigest = digest := by
  unfold checkSignedEffectsPlain
  split_ifs with haddress hdigest
  · simp [haddress]
  · simp [hdigest]
  · simp only [ne_eq, not_not] at haddress hdigest
    rw [except_pure_eq_ok]
    exact ⟨fun h => ⟨h.symm, haddress, hdigest⟩, fun h => h.1.symm⟩

theorem verifyCertificateResponseV1_eq_ok {address : α} {digest : ℕ}
    {response response' : HandleCertificateResponseV1 α Event Object} :
    verifyCertificateResponseV1 eventsDigest computeObjectReference address digest response = .ok response' ↔
      response' = response ∧ response.signedEffects.authSig.authority = address ∧
        response.signedEffects.data.transactionDigest = digest ∧
        ConsistentWith eventsDigest computeObjectReference response.signedEffects.data response.events
          response.inputObjects response.outputObjects := by
  simp only [verifyCertificateResponseV1, except_bind_eq_ok, checkSignedEffectsPlain_eq_ok, ConsistentWith,
    except_pure_eq_ok]
  constructor
  · rintro ⟨_, ⟨rfl, hauthority, hdigest⟩, ⟨⟩, hevents, ⟨⟩, hinput, ⟨⟩, houtput, rfl⟩
    exact ⟨rfl, hauthority, hdigest, (checkEvents_eq_ok eventsDigest).mp hevents,
      (checkObjects_eq_ok computeObjectReference).mp hinput, (checkObjects_eq_ok computeObjectReference).mp houtput⟩
  · rintro ⟨rfl, hauthority, hdigest, hevents, hinput, houtput⟩
    exact ⟨_, ⟨rfl, hauthority, hdigest⟩, ⟨⟩, (checkEvents_eq_ok eventsDigest).mpr hevents,
      ⟨⟩, (checkObjects_eq_ok computeObjectReference).mpr hinput,
      ⟨⟩, (checkObjects_eq_ok computeObjectReference).mpr houtput, rfl⟩

end SafeClient

/-! ### Counting signatures -/

/-- A quorum signature, with the signatures it aggregates. -/
structure AuthorityQuorumSignInfo (α : Type) where
  epoch : ℕ
  signatures : List (AuthoritySignInfo α)
  deriving DecidableEq, Repr

/-- `AuthorityQuorumSignInfo::new_from_auth_sign_infos`. -/
def AuthorityQuorumSignInfo.newFromAuthSignInfos {α : Type} (committee : Committee α)
    (authSignInfos : List (AuthoritySignInfo α)) : Except (IotaError α) (AuthorityQuorumSignInfo α) :=
  if ¬ authSignInfos.all (·.epoch = committee.epoch) then
    throw (.invalidSignature "All signatures must be from the same epoch as the committee")
  else if (authSignInfos.map fun a => committee.weight a.authority).sum < QUORUM_THRESHOLD then
    throw (.invalidSignature "Signatures don't have enough stake to form a quorum")
  -- the signers are looked up by `authority_index` to build the bitmap
  else if ¬ authSignInfos.all fun a => (committee.authorityIndex a.authority).isSome then
    throw .unknownSigner
  else pure ⟨committee.epoch, authSignInfos⟩

structure StakeAggregator (α : Type) where
  data : List (α × AuthoritySignInfo α)
  totalVotes : ℕ

inductive InsertResult (α CertT : Type)
  | quorumReached (cert : CertT)
  | failed (error : IotaError α)
  | notEnoughVotes (badVotes : ℕ) (badAuthorities : List α)

namespace StakeAggregator

variable {α : Type} [DecidableEq α] (committee : Committee α)

def new : StakeAggregator α := ⟨[], 0⟩

/-- `insert_generic`: a second vote of one authority fails, and so does a vote of
no weight, which is kept nonetheless. -/
def insertGeneric (agg : StakeAggregator α) (authority : α) (s : AuthoritySignInfo α) :
    InsertResult α (List (α × AuthoritySignInfo α)) × StakeAggregator α :=
  match agg.data.lookup authority with
  | some old => (.failed (.stakeAggregatorRepeatedSigner authority (decide (old ≠ s))), agg)
  | none =>
    let data := agg.data ++ [(authority, s)]
    if 0 < committee.weight authority then
      let totalVotes := agg.totalVotes + committee.weight authority
      (if QUORUM_THRESHOLD ≤ totalVotes then .quorumReached data else .notEnoughVotes 0 [], ⟨data, totalVotes⟩)
    else (.failed .invalidAuthenticator, { agg with data })

/-- `insert` for signatures: at a quorum the aggregate is checked, and when it
does not verify the signatures that do not are dropped with their votes. -/
def insert (agg : StakeAggregator α) (envelope : SignedTransactionEffects α) :
    InsertResult α (AuthorityQuorumSignInfo α) × StakeAggregator α :=
  if committee.epoch ≠ envelope.authSig.epoch then
    (.failed (.wrongEpoch committee.epoch envelope.authSig.epoch), agg)
  else
    match agg.insertGeneric committee envelope.authSig.authority envelope.authSig with
    | (.quorumReached data, agg) =>
      match AuthorityQuorumSignInfo.newFromAuthSignInfos committee (data.map Prod.snd) with
      | .error error => (.failed error, agg)
      | .ok aggregated =>
        -- the aggregate verifies exactly when every signature in it does
        if aggregated.signatures.all (·.verifies) then (.quorumReached aggregated, agg)
        else
          let bad := data.filter fun entry => !entry.2.verifies
          let badVotes := (bad.map fun entry => committee.weight entry.1).sum
          (.notEnoughVotes badVotes (bad.map Prod.fst), ⟨data.filter (·.2.verifies), agg.totalVotes - badVotes⟩)
    | (.failed error, agg) => (.failed error, agg)
    | (.notEnoughVotes badVotes badAuthorities, agg) => (.notEnoughVotes badVotes badAuthorities, agg)

end StakeAggregator

/-- Votes grouped by the epoch and digest of what they sign. -/
structure MultiStakeAggregator (α : Type) where
  stakeMaps : List ((ℕ × TransactionEffects) × StakeAggregator α)

/-- `MultiStakeAggregator::insert`: a key seen for the first time gets an entry
only when its first vote does not fail. -/
def MultiStakeAggregator.insert {α : Type} [DecidableEq α] (committee : Committee α) (m : MultiStakeAggregator α)
    (k : ℕ × TransactionEffects) (envelope : SignedTransactionEffects α) :
    InsertResult α (AuthorityQuorumSignInfo α) × MultiStakeAggregator α :=
  match m.stakeMaps.lookup k with
  | some agg =>
    let (result, agg) := agg.insert committee envelope
    (result, ⟨m.stakeMaps.map fun entry => if entry.1 = k then (k, agg) else entry⟩)
  | none =>
    match StakeAggregator.new.insert committee envelope with
    | (.failed error, _) => (.failed error, m)
    | (result, agg) => (result, ⟨m.stakeMaps ++ [(k, agg)]⟩)

/-! ### `process_certificate` -/

structure CertifiedTransactionEffects (α : Type) where
  data : TransactionEffects
  authSig : AuthorityQuorumSignInfo α
  deriving DecidableEq, Repr

/-- The check of a quorum certificate: its epoch, every signature, and the
weight of the signers. -/
def CertifiedTransactionEffects.verify {α : Type} (committee : Committee α) (ct : CertifiedTransactionEffects α) :
    Except (IotaError α) (CertifiedTransactionEffects α) :=
  if ct.authSig.epoch ≠ committee.epoch then throw (.wrongEpoch committee.epoch ct.authSig.epoch)
  else if ct.authSig.signatures.all (·.verifies) ∧
      QUORUM_THRESHOLD ≤ (ct.authSig.signatures.map fun s => committee.weight s.authority).sum
  then pure ct
  else throw (.invalidSignature "quorum signature does not verify")

structure QuorumDriverResponse (α Event Object : Type) where
  effectsCert : CertifiedTransactionEffects α
  events : Option (TransactionEvents Event)
  inputObjects : Option (List Object)
  outputObjects : Option (List Object)
  deriving DecidableEq, Repr

structure ProcessCertificateState (α Event Object : Type) where
  effectsMap : MultiStakeAggregator α
  nonRetryableStake : ℕ
  nonRetryableErrors : List (IotaError α × List α × ℕ)
  retryableErrors : List (IotaError α × List α × ℕ)
  retryable : Bool
  events : Option (TransactionEvents Event)
  inputObjects : Option (List Object)
  outputObjects : Option (List Object)

def ProcessCertificateState.initial {α Event Object : Type} : ProcessCertificateState α Event Object :=
  ⟨⟨[]⟩, 0, [], [], true, none, none, none⟩

inductive ReduceOutput (R S : Type)
  | success (result : R)
  | failed (state : S)
  | continue (state : S)

/-- `quorum_map_then_reduce_with_timeout` over the responses in the order they
arrive, the timeout cutting the list short: it stops at the first success or
failure, and fails with the state when the responses run out. -/
def quorumMapThenReduce {K V E S R : Type} (weight : K → ℕ) (reduce : S → K → ℕ → Except E V → ReduceOutput R S) :
    S → List (K × Except E V) → Except S R
  | state, [] => .error state
  | state, (name, result) :: responses =>
    match reduce state name (weight name) result with
    | .continue state => quorumMapThenReduce weight reduce state responses
    | .failed state => .error state
    | .success result => .ok result

theorem quorumMapThenReduce_induction {K V E S R : Type} {weight : K → ℕ}
    {reduce : S → K → ℕ → Except E V → ReduceOutput R S} {responses : List (K × Except E V)}
    (Inv : S → Prop) (Post : R → Prop)
    (hcontinue : ∀ state state', Inv state → ∀ x ∈ responses,
      reduce state x.1 (weight x.1) x.2 = .continue state' → Inv state')
    (hsuccess : ∀ state result, Inv state → ∀ x ∈ responses,
      reduce state x.1 (weight x.1) x.2 = .success result → Post result)
    {state : S} {result : R} (hinit : Inv state)
    (h : quorumMapThenReduce weight reduce state responses = .ok result) : Post result := by
  induction responses generalizing state with
  | nil => cases h
  | cons x responses ih =>
    obtain ⟨name, response⟩ := x
    have hhead : (name, response) ∈ (name, response) :: responses := List.mem_cons_self
    rw [quorumMapThenReduce] at h
    cases hreduce : reduce state name (weight name) response with
    | «continue» state' =>
      rw [hreduce] at h
      exact ih (fun s s' hs x hx => hcontinue s s' hs x (List.mem_cons_of_mem _ hx))
        (fun s r hs x hx => hsuccess s r hs x (List.mem_cons_of_mem _ hx))
        (hcontinue state state' hinit _ hhead hreduce) h
    | failed state' => simp [hreduce] at h
    | success result' =>
      rw [hreduce] at h
      cases h
      exact hsuccess state result hinit _ hhead hreduce

inductive AggregatorProcessCertificateError (α : Type)
  | retryableExecuteCertificate (retryableErrors : List (IotaError α × List α × ℕ))
  | fatalExecuteCertificate (nonRetryableErrors : List (IotaError α × List α × ℕ))
  deriving DecidableEq, Repr

section ProcessCertificate

variable {α Event Object : Type} [DecidableEq α] (committee : Committee α)

/-- The rule by which `handle_process_certificate_response` keeps events and
objects: the first that come are kept. -/
def keepFirst {β : Type} (kept new : Option β) : Option β := if new.isSome && kept.isNone then new else kept

/-- `handle_process_certificate_response`: the events and objects of the first
response that has them are kept, whatever effects that response signed. -/
def handleProcessCertificateResponse (state : ProcessCertificateState α Event Object)
    (response : Except (IotaError α) (HandleCertificateResponseV1 α Event Object)) :
    ProcessCertificateState α Event Object × Except (IotaError α) (Option (QuorumDriverResponse α Event Object)) :=
  match response with
  | .error err => (state, .error err)
  | .ok ⟨signedEffects, events, inputObjects, outputObjects⟩ =>
    let state := { state with
      events := keepFirst state.events events
      inputObjects := keepFirst state.inputObjects inputObjects
      outputObjects := keepFirst state.outputObjects outputObjects }
    match state.effectsMap.insert committee (signedEffects.authSig.epoch, signedEffects.data) signedEffects with
    | (.notEnoughVotes badVotes badAuthorities, effectsMap) =>
      ({ state with
          effectsMap
          nonRetryableStake := state.nonRetryableStake + badVotes
          nonRetryableErrors :=
            if 0 < badVotes then
              state.nonRetryableErrors ++
                [(.invalidSignature "Individual signature verification failed", badAuthorities, badVotes)]
            else state.nonRetryableErrors }, .ok none)
    | (.failed error, effectsMap) => ({ state with effectsMap }, .error error)
    | (.quorumReached certSig, effectsMap) =>
      match (CertifiedTransactionEffects.mk signedEffects.data certSig).verify committee with
      | .ok ct =>
        ({ state with effectsMap, events := none, inputObjects := none, outputObjects := none },
          .ok (some ⟨ct, state.events, state.inputObjects, state.outputObjects⟩))
      | .error error => ({ state with effectsMap }, .error error)

/-- The reduce closure of `process_certificate`. -/
def processCertificateReduce (isRetryable : IotaError α → Bool) (state : ProcessCertificateState α Event Object)
    (name : α) (weight : ℕ) (response : Except (IotaError α) (HandleCertificateResponseV1 α Event Object)) :
    ReduceOutput (QuorumDriverResponse α Event Object) (ProcessCertificateState α Event Object) :=
  match handleProcessCertificateResponse committee state response with
  | (_, .ok (some effects)) => .success effects
  | (state, .ok none) =>
    if VALIDITY_THRESHOLD ≤ state.nonRetryableStake then .failed { state with retryable := false } else .continue state
  | (state, .error err) =>
    let state :=
      if isRetryable err then { state with retryableErrors := state.retryableErrors ++ [(err, [name], weight)] }
      else { state with
        nonRetryableStake := state.nonRetryableStake + weight
        nonRetryableErrors := state.nonRetryableErrors ++ [(err, [name], weight)] }
    if VALIDITY_THRESHOLD ≤ state.nonRetryableStake then .failed { state with retryable := false } else .continue state

/-- `AuthorityAggregator::process_certificate` on the responses of the
validators' safe clients, in the order they arrive. -/
def processCertificate (isRetryable : IotaError α → Bool)
    (responses : List (α × Except (IotaError α) (HandleCertificateResponseV1 α Event Object))) :
    Except (AggregatorProcessCertificateError α) (QuorumDriverResponse α Event Object) :=
  (quorumMapThenReduce committee.weight (processCertificateReduce committee isRetryable) .initial responses).mapError
    fun state =>
      if state.retryable then .retryableExecuteCertificate state.retryableErrors
      else .fatalExecuteCertificate state.nonRetryableErrors

end ProcessCertificate

/-! ### Where a result comes from -/

theorem CertifiedTransactionEffects.verify_eq_ok {α : Type} {committee : Committee α}
    {ct ct' : CertifiedTransactionEffects α} :
    ct.verify committee = .ok ct' ↔
      ct' = ct ∧ ct.authSig.epoch = committee.epoch ∧ ct.authSig.signatures.all (·.verifies) ∧
        QUORUM_THRESHOLD ≤ (ct.authSig.signatures.map fun s => committee.weight s.authority).sum := by
  unfold CertifiedTransactionEffects.verify
  split_ifs with hepoch hquorum
  · simp [hepoch]
  · simp only [except_pure_eq_ok, not_not.mp hepoch]
    tauto
  · simp only [Decidable.not_not] at hepoch
    simp only [false_iff]
    tauto

theorem CertifiedTransactionEffects.exists_signature_of_verify_eq_ok {α : Type} {committee : Committee α}
    {ct : CertifiedTransactionEffects α}
    (h : ct.verify committee = .ok ct) : ∃ s, s ∈ ct.authSig.signatures := by
  obtain ⟨-, -, -, hquorum⟩ := Iff.mp CertifiedTransactionEffects.verify_eq_ok h
  apply List.exists_mem_of_ne_nil
  rintro hnil
  simp [hnil, QUORUM_THRESHOLD] at hquorum

theorem AuthorityQuorumSignInfo.eq_of_newFromAuthSignInfos_eq_ok {α : Type} {committee : Committee α}
    {authSignInfos : List (AuthoritySignInfo α)} {aggregated : AuthorityQuorumSignInfo α}
    (h : newFromAuthSignInfos committee authSignInfos = .ok aggregated) :
    aggregated = ⟨committee.epoch, authSignInfos⟩ := by
  unfold newFromAuthSignInfos at h
  split_ifs at h
  exact ((except_pure_eq_ok).mp h).symm

section Provenance

variable {α Event Object : Type}

/-- The signatures an aggregator holds are of distinct authorities, each filed
under the authority that signed it, and satisfy `Q`. -/
def StakeAggregator.WellFormed (Q : AuthoritySignInfo α → Prop) (agg : StakeAggregator α) : Prop :=
  (agg.data.map Prod.fst).Nodup ∧ ∀ x ∈ agg.data, x.1 = x.2.authority ∧ Q x.2

namespace StakeAggregator

variable {Q : AuthoritySignInfo α → Prop}

theorem new_wellFormed : (new : StakeAggregator α).WellFormed Q := by
  simp [WellFormed, new]

theorem WellFormed.filter {agg : StakeAggregator α} (hagg : agg.WellFormed Q) (p : α × AuthoritySignInfo α → Bool)
    (totalVotes : ℕ) : (⟨agg.data.filter p, totalVotes⟩ : StakeAggregator α).WellFormed Q :=
  ⟨hagg.1.sublist (List.filter_sublist.map Prod.fst), fun x hx => hagg.2 x (List.mem_of_mem_filter hx)⟩

theorem WellFormed.signatures {agg : StakeAggregator α} (hagg : agg.WellFormed Q) :
    ((agg.data.map Prod.snd).map (·.authority)).Nodup ∧ ∀ s ∈ agg.data.map Prod.snd, Q s := by
  have hauthority : (agg.data.map Prod.snd).map (·.authority) = agg.data.map Prod.fst := by
    rw [List.map_map]
    exact List.map_congr_left fun x hx => ((hagg.2 x hx).1).symm
  refine ⟨hauthority ▸ hagg.1, ?_⟩
  simp only [List.mem_map]
  rintro s ⟨x, hx, rfl⟩
  exact (hagg.2 x hx).2

variable [DecidableEq α] (committee : Committee α)

theorem insertGeneric_wellFormed {agg : StakeAggregator α} {s : AuthoritySignInfo α}
    (hagg : agg.WellFormed Q) (hs : Q s) : (agg.insertGeneric committee s.authority s).2.WellFormed Q := by
  unfold insertGeneric
  cases hlookup : agg.data.lookup s.authority with
  | some old => exact hagg
  | none =>
    -- a signer is added only when it has not signed yet
    have hfresh : s.authority ∉ agg.data.map Prod.fst := by
      rw [List.lookup_eq_none_iff] at hlookup
      simp only [List.mem_map, not_exists, not_and]
      intro x hx heq
      simpa [heq] using hlookup x hx
    have hwf : ((agg.data ++ [(s.authority, s)]).map Prod.fst).Nodup ∧
        ∀ x ∈ agg.data ++ [(s.authority, s)], x.1 = x.2.authority ∧ Q x.2 := by
      refine ⟨?_, ?_⟩
      · rw [List.map_append, List.nodup_append]
        refine ⟨hagg.1, by simp, ?_⟩
        rintro a ha b hb rfl
        simp only [List.map_cons, List.map_nil, List.mem_singleton] at hb
        exact hfresh (hb ▸ ha)
      · simp only [List.mem_append, List.mem_singleton]
        rintro x (hx | rfl)
        exacts [hagg.2 x hx, ⟨rfl, hs⟩]
    dsimp only
    split_ifs <;> exact hwf

theorem data_of_insertGeneric_eq_quorumReached {agg : StakeAggregator α} {a : α} {s : AuthoritySignInfo α}
    {data : List (α × AuthoritySignInfo α)}
    (h : (agg.insertGeneric committee a s).1 = .quorumReached data) :
    data = (agg.insertGeneric committee a s).2.data := by
  unfold insertGeneric at h ⊢
  cases hlookup : agg.data.lookup a with
  | some old => simp [hlookup] at h
  | none =>
    simp only [hlookup] at h ⊢
    split_ifs at h ⊢
    exact (InsertResult.quorumReached.inj h).symm

theorem insert_wellFormed {agg : StakeAggregator α} {envelope : SignedTransactionEffects α}
    (hagg : agg.WellFormed Q) (hs : Q envelope.authSig) : (agg.insert committee envelope).2.WellFormed Q := by
  have hdata := @data_of_insertGeneric_eq_quorumReached _ _ committee agg envelope.authSig.authority envelope.authSig
  have hwf := insertGeneric_wellFormed committee hagg hs
  unfold insert
  split_ifs
  · exact hagg
  generalize agg.insertGeneric committee envelope.authSig.authority envelope.authSig = out at hdata hwf ⊢
  obtain ⟨result, agg'⟩ := out
  cases result with
  | quorumReached data =>
    rw [hdata rfl]
    dsimp only
    cases AuthorityQuorumSignInfo.newFromAuthSignInfos committee (agg'.data.map Prod.snd) with
    | error error => exact hwf
    | ok aggregated =>
      dsimp only
      split_ifs
      exacts [hwf, hwf.filter _ _]
  | failed error => exact hwf
  | notEnoughVotes badVotes badAuthorities => exact hwf

theorem insert_eq_quorumReached {agg : StakeAggregator α} {envelope : SignedTransactionEffects α}
    {cert : AuthorityQuorumSignInfo α} (h : (agg.insert committee envelope).1 = .quorumReached cert) :
    cert = ⟨committee.epoch, (agg.insert committee envelope).2.data.map Prod.snd⟩ := by
  have hdata := @data_of_insertGeneric_eq_quorumReached _ _ committee agg envelope.authSig.authority envelope.authSig
  unfold insert at h ⊢
  split_ifs at h ⊢
  generalize agg.insertGeneric committee envelope.authSig.authority envelope.authSig = out at hdata h ⊢
  obtain ⟨result, agg'⟩ := out
  cases result with
  | quorumReached data =>
    rw [hdata rfl] at h ⊢
    dsimp only at h ⊢
    cases hnew : AuthorityQuorumSignInfo.newFromAuthSignInfos committee (agg'.data.map Prod.snd) with
    | error error => simp [hnew] at h
    | ok aggregated =>
      simp only [hnew] at h ⊢
      split_ifs at h ⊢
      cases h
      exact AuthorityQuorumSignInfo.eq_of_newFromAuthSignInfos_eq_ok hnew
  | failed error => cases h
  | notEnoughVotes badVotes badAuthorities => cases h

end StakeAggregator

/-- Every aggregator of a `MultiStakeAggregator` is well formed, its
signatures, on the effects of its key, satisfying `S`. -/
def MultiStakeAggregator.WellFormed (S : SignedTransactionEffects α → Prop) (m : MultiStakeAggregator α) : Prop :=
  ∀ e ∈ m.stakeMaps, e.2.WellFormed fun s => S ⟨e.1.2, s⟩

namespace MultiStakeAggregator

theorem mem_stakeMaps_of_lookup {m : MultiStakeAggregator α} {k : ℕ × TransactionEffects} {agg : StakeAggregator α}
    (h : m.stakeMaps.lookup k = some agg) : (k, agg) ∈ m.stakeMaps := by
  obtain ⟨l₁, l₂, hsplit, -⟩ := List.lookup_eq_some_iff.mp h
  simp [hsplit]

variable [DecidableEq α] (committee : Committee α) {S : SignedTransactionEffects α → Prop}

theorem insert_fst_eq {m : MultiStakeAggregator α} {envelope : SignedTransactionEffects α} (hm : m.WellFormed S) :
    ∃ agg : StakeAggregator α, agg.WellFormed (fun s => S ⟨envelope.data, s⟩) ∧
      (m.insert committee (envelope.authSig.epoch, envelope.data) envelope).1 = (agg.insert committee envelope).1 := by
  unfold MultiStakeAggregator.insert
  cases hlookup : m.stakeMaps.lookup (envelope.authSig.epoch, envelope.data) with
  | some agg => exact ⟨agg, hm _ (mem_stakeMaps_of_lookup hlookup), rfl⟩
  | none =>
    refine ⟨StakeAggregator.new, StakeAggregator.new_wellFormed, ?_⟩
    dsimp only
    split <;> simp_all

theorem insert_wellFormed {m : MultiStakeAggregator α} {envelope : SignedTransactionEffects α}
    (hm : m.WellFormed S) (he : S envelope) :
    (m.insert committee (envelope.authSig.epoch, envelope.data) envelope).2.WellFormed S := by
  unfold MultiStakeAggregator.insert
  cases hlookup : m.stakeMaps.lookup (envelope.authSig.epoch, envelope.data) with
  | some agg =>
    -- the aggregator of the vote's key is replaced by the one that counted it
    have hagg := StakeAggregator.insert_wellFormed committee (hm _ (mem_stakeMaps_of_lookup hlookup))
      (Q := fun s => S ⟨envelope.data, s⟩) he
    dsimp only
    generalize agg.insert committee envelope = out at hagg ⊢
    obtain ⟨result, agg'⟩ := out
    intro e he'
    obtain ⟨e', hmem, rfl⟩ := List.mem_map.mp he'
    split_ifs with hkey
    · exact hagg
    · exact hm e' hmem
  | none =>
    have hagg := StakeAggregator.insert_wellFormed committee StakeAggregator.new_wellFormed
      (Q := fun s => S ⟨envelope.data, s⟩) he
    dsimp only
    generalize StakeAggregator.new.insert committee envelope = out at hagg ⊢
    obtain ⟨result, agg⟩ := out
    -- a first vote that fails leaves the aggregator as it was
    cases result with
    | failed error => exact hm
    | quorumReached cert | notEnoughVotes badVotes badAuthorities =>
      intro e he'
      rcases List.mem_append.mp he' with he' | he'
      · exact hm e he'
      · rw [List.mem_singleton.mp he']
        exact hagg

theorem insert_eq_quorumReached {m : MultiStakeAggregator α} {envelope : SignedTransactionEffects α}
    {cert : AuthorityQuorumSignInfo α} (hm : m.WellFormed S) (he : S envelope)
    (h : (m.insert committee (envelope.authSig.epoch, envelope.data) envelope).1 = .quorumReached cert) :
    cert.epoch = committee.epoch ∧ (cert.signatures.map (·.authority)).Nodup ∧
      ∀ s ∈ cert.signatures, S ⟨envelope.data, s⟩ := by
  obtain ⟨agg, hagg, hfst⟩ := @insert_fst_eq _ _ committee _ _ envelope hm
  rw [hfst] at h
  have hwf := (StakeAggregator.insert_wellFormed committee hagg he).signatures
  rw [StakeAggregator.insert_eq_quorumReached committee h]
  exact ⟨rfl, hwf⟩

end MultiStakeAggregator

/-- Events and objects that responses satisfying `S` returned. -/
def KeptFrom (S : HandleCertificateResponseV1 α Event Object → Prop) (events : Option (TransactionEvents Event))
    (inputObjects outputObjects : Option (List Object)) : Prop :=
  (∀ ev, events = some ev → ∃ r, S r ∧ r.events = some ev) ∧
    (∀ objs, inputObjects = some objs → ∃ r, S r ∧ r.inputObjects = some objs) ∧
    ∀ objs, outputObjects = some objs → ∃ r, S r ∧ r.outputObjects = some objs

theorem keepFirst_of_forall {β : Type} {P : β → Prop} {kept new : Option β} (hkept : ∀ x, kept = some x → P x)
    (hnew : ∀ x, new = some x → P x) : ∀ x, keepFirst kept new = some x → P x := by
  intro x h
  unfold keepFirst at h
  split_ifs at h
  exacts [hnew x h, hkept x h]

theorem keptFrom_keepFirst {S : HandleCertificateResponseV1 α Event Object → Prop}
    {events : Option (TransactionEvents Event)} {inputObjects outputObjects : Option (List Object)}
    {r : HandleCertificateResponseV1 α Event Object} (hkept : KeptFrom S events inputObjects outputObjects)
    (hr : S r) :
    KeptFrom S (keepFirst events r.events) (keepFirst inputObjects r.inputObjects)
      (keepFirst outputObjects r.outputObjects) :=
  ⟨keepFirst_of_forall hkept.1 fun _ h => ⟨r, hr, h⟩, keepFirst_of_forall hkept.2.1 fun _ h => ⟨r, hr, h⟩,
    keepFirst_of_forall hkept.2.2 fun _ h => ⟨r, hr, h⟩⟩

theorem consistentWith_of_keptFrom (eventsDigest : TransactionEvents Event → ℕ)
    (computeObjectReference : Object → ObjectRef) {S : HandleCertificateResponseV1 α Event Object → Prop}
    {effects : TransactionEffects} {events : Option (TransactionEvents Event)}
    {inputObjects outputObjects : Option (List Object)} (hkept : KeptFrom S events inputObjects outputObjects)
    (hS : ∀ r, S r → ConsistentWith eventsDigest computeObjectReference effects r.events r.inputObjects r.outputObjects) :
    ConsistentWith eventsDigest computeObjectReference effects events inputObjects outputObjects := by
  refine ⟨fun ev hev => ?_, fun objs hobjs => ?_, fun objs hobjs => ?_⟩
  · obtain ⟨r, hr, hrev⟩ := hkept.1 ev hev
    exact (hS r hr).1 ev hrev
  · obtain ⟨r, hr, hrobjs⟩ := hkept.2.1 objs hobjs
    exact (hS r hr).2.1 objs hrobjs
  · obtain ⟨r, hr, hrobjs⟩ := hkept.2.2 objs hobjs
    exact (hS r hr).2.2 objs hrobjs

/-- Every vote a state holds is the signature of a response satisfying `S` on
the effects that response signed, and every event and object it keeps was
returned by such a response. -/
structure ProcessCertificateState.Sourced (S : HandleCertificateResponseV1 α Event Object → Prop)
    (state : ProcessCertificateState α Event Object) : Prop where
  votes : state.effectsMap.WellFormed fun signedEffects => ∃ r, S r ∧ r.signedEffects = signedEffects
  kept : KeptFrom S state.events state.inputObjects state.outputObjects

theorem ProcessCertificateState.initial_sourced {S : HandleCertificateResponseV1 α Event Object → Prop} :
    (initial : ProcessCertificateState α Event Object).Sourced S :=
  ⟨by simp [initial, MultiStakeAggregator.WellFormed], by simp [initial, KeptFrom]⟩

/-- A response carries a quorum certificate of distinct signers on effects that
responses satisfying `S` signed, and events and objects such responses returned. -/
structure QuorumDriverResponse.Sourced (committee : Committee α) (S : HandleCertificateResponseV1 α Event Object → Prop)
    (response : QuorumDriverResponse α Event Object) : Prop where
  verified : response.effectsCert.verify committee = .ok response.effectsCert
  signers_nodup : (response.effectsCert.authSig.signatures.map (·.authority)).Nodup
  signed : ∀ s ∈ response.effectsCert.authSig.signatures,
    ∃ r, S r ∧ r.signedEffects = ⟨response.effectsCert.data, s⟩
  kept : KeptFrom S response.events response.inputObjects response.outputObjects

variable [DecidableEq α] (committee : Committee α) {S : HandleCertificateResponseV1 α Event Object → Prop}

theorem handleProcessCertificateResponse_sourced {state : ProcessCertificateState α Event Object}
    {response : Except (IotaError α) (HandleCertificateResponseV1 α Event Object)}
    (hs : state.Sourced S) (hr : ∀ r, response = .ok r → S r) :
    (handleProcessCertificateResponse committee state response).1.Sourced S := by
  rcases response with error | r
  · exact hs
  have hS := hr r rfl
  have hvotes :=
    @MultiStakeAggregator.insert_wellFormed _ _ committee _ _ r.signedEffects hs.votes ⟨r, hS, rfl⟩
  have hkept := keptFrom_keepFirst hs.kept hS
  obtain ⟨signedEffects, events, inputObjects, outputObjects⟩ := r
  unfold handleProcessCertificateResponse
  dsimp only at hvotes hkept ⊢
  generalize state.effectsMap.insert committee (signedEffects.authSig.epoch, signedEffects.data) signedEffects = out
    at hvotes ⊢
  obtain ⟨result, effectsMap⟩ := out
  cases result with
  | notEnoughVotes badVotes badAuthorities => exact ⟨hvotes, hkept⟩
  | failed error => exact ⟨hvotes, hkept⟩
  | quorumReached certSig =>
    dsimp only
    -- a quorum hands the kept events and objects over and keeps none
    cases (CertifiedTransactionEffects.mk signedEffects.data certSig).verify committee with
    | ok ct => exact ⟨hvotes, by simp [KeptFrom]⟩
    | error error => exact ⟨hvotes, hkept⟩

theorem sourced_of_handleProcessCertificateResponse_eq_some {state : ProcessCertificateState α Event Object}
    {response : Except (IotaError α) (HandleCertificateResponseV1 α Event Object)}
    {q : QuorumDriverResponse α Event Object} (hs : state.Sourced S) (hr : ∀ r, response = .ok r → S r)
    (h : (handleProcessCertificateResponse committee state response).2 = .ok (some q)) : q.Sourced committee S := by
  rcases response with error | r
  · cases h
  have hS := hr r rfl
  have hquorum := fun cert =>
    @MultiStakeAggregator.insert_eq_quorumReached _ _ committee _ _ r.signedEffects cert hs.votes ⟨r, hS, rfl⟩
  have hkept := keptFrom_keepFirst hs.kept hS
  obtain ⟨signedEffects, events, inputObjects, outputObjects⟩ := r
  unfold handleProcessCertificateResponse at h
  dsimp only at h hquorum hkept
  generalize state.effectsMap.insert committee (signedEffects.authSig.epoch, signedEffects.data) signedEffects = out
    at h hquorum
  obtain ⟨result, effectsMap⟩ := out
  cases result with
  | notEnoughVotes badVotes badAuthorities => cases h
  | failed error => cases h
  | quorumReached certSig =>
    obtain ⟨-, hnodup, hsigned⟩ := hquorum certSig rfl
    dsimp only at h
    cases hverify : (CertifiedTransactionEffects.mk signedEffects.data certSig).verify committee with
    | error error => simp [hverify] at h
    | ok ct =>
      simp only [hverify, Except.ok.injEq, Option.some.injEq] at h
      obtain rfl := (Iff.mp CertifiedTransactionEffects.verify_eq_ok hverify).1
      subst h
      exact ⟨hverify, hnodup, hsigned, hkept⟩

theorem processCertificateReduce_sourced (isRetryable : IotaError α → Bool)
    {state state' : ProcessCertificateState α Event Object} {name : α} {weight : ℕ}
    {response : Except (IotaError α) (HandleCertificateResponseV1 α Event Object)}
    (hs : state.Sourced S) (hr : ∀ r, response = .ok r → S r)
    (h : processCertificateReduce committee isRetryable state name weight response = .continue state') :
    state'.Sourced S := by
  have hnext := handleProcessCertificateResponse_sourced committee hs hr
  unfold processCertificateReduce at h
  generalize handleProcessCertificateResponse committee state response = out at h hnext
  obtain ⟨next, result⟩ := out
  -- the error counters are the only fields the reduce step changes
  rcases result with error | _ | q <;> dsimp only at h
  · split_ifs at h <;> cases h <;> exact ⟨hnext.votes, hnext.kept⟩
  · split_ifs at h
    cases h
    exact hnext
  · cases h

theorem processCertificateReduce_success (isRetryable : IotaError α → Bool)
    {state : ProcessCertificateState α Event Object} {name : α} {weight : ℕ}
    {response : Except (IotaError α) (HandleCertificateResponseV1 α Event Object)}
    {q : QuorumDriverResponse α Event Object} (hs : state.Sourced S) (hr : ∀ r, response = .ok r → S r)
    (h : processCertificateReduce committee isRetryable state name weight response = .success q) :
    q.Sourced committee S := by
  have hq := fun q => @sourced_of_handleProcessCertificateResponse_eq_some _ _ _ _ committee _ _ _ q hs hr
  unfold processCertificateReduce at h
  generalize handleProcessCertificateResponse committee state response = out at h hq
  obtain ⟨next, result⟩ := out
  rcases result with error | _ | q' <;> dsimp only at h
  · split_ifs at h
  · split_ifs at h
  · cases h
    exact hq _ rfl

end Provenance

/-! ### What `process_certificate` returns -/

section ProcessCertificateResult

variable {α Event Object : Type} [DecidableEq α] (committee : Committee α)

/-- The certificate `process_certificate` returns is a quorum of distinct
signers on effects that responses of the run signed, and its events and
objects were returned by responses of the run. -/
theorem processCertificate_sourced (isRetryable : IotaError α → Bool)
    (responses : List (α × Except (IotaError α) (HandleCertificateResponseV1 α Event Object)))
    {response : QuorumDriverResponse α Event Object}
    (h : processCertificate committee isRetryable responses = .ok response) :
    response.Sourced committee fun r => ∃ a, (a, .ok r) ∈ responses := by
  unfold processCertificate at h
  rw [except_mapError_eq_ok] at h
  -- a response of the run is one the reduce step is handed
  have hran : ∀ x ∈ responses, ∀ r, x.2 = .ok r → ∃ a, (a, .ok r) ∈ responses := by
    rintro ⟨a, _⟩ hx r rfl
    exact ⟨a, hx⟩
  refine quorumMapThenReduce_induction (ProcessCertificateState.Sourced fun r => ∃ a, (a, .ok r) ∈ responses) _
    ?_ ?_ ProcessCertificateState.initial_sourced h
  · intro state state' hs x hx hcontinue
    exact processCertificateReduce_sourced committee isRetryable hs (hran x hx) hcontinue
  · intro state result hs x hx hsuccess
    exact processCertificateReduce_success committee isRetryable hs (hran x hx) hsuccess

variable (eventsDigest : TransactionEvents Event → ℕ) (computeObjectReference : Object → ObjectRef)

/-- When every validator that answers signs the same effects, the certificate
is on those effects and the events and objects returned with it are the ones
they record. -/
theorem processCertificate_consistent_of_agreement (isRetryable : IotaError α → Bool) (digest : ℕ)
    (effects : TransactionEffects)
    (answers : List (α × Except (IotaError α) (HandleCertificateResponseV1 α Event Object)))
    (hagree : ∀ x ∈ answers, ∀ r, x.2 = .ok r → r.signedEffects.data = effects)
    {response : QuorumDriverResponse α Event Object}
    (h : processCertificate committee isRetryable
      (safeClientResponses eventsDigest computeObjectReference digest answers) = .ok response) :
    response.effectsCert.data = effects ∧
      ConsistentWith eventsDigest computeObjectReference effects response.events response.inputObjects
        response.outputObjects := by
  have hsourced := processCertificate_sourced committee isRetryable _ h
  -- every response the aggregator saw passed its validator's safe client
  have hpassed : ∀ r, (∃ a, (a, .ok r) ∈ safeClientResponses eventsDigest computeObjectReference digest answers) →
      r.signedEffects.data = effects ∧
        ConsistentWith eventsDigest computeObjectReference effects r.events r.inputObjects r.outputObjects := by
    rintro r ⟨a, hmem⟩
    obtain ⟨⟨a', answer⟩, hanswer, heq⟩ := List.mem_map.mp hmem
    obtain ⟨rfl, hverify⟩ := Prod.mk.inj heq
    obtain ⟨raw, rfl, hverify⟩ := except_bind_eq_ok.mp hverify
    obtain ⟨rfl, -, -, hconsistent⟩ := (verifyCertificateResponseV1_eq_ok eventsDigest computeObjectReference).mp hverify
    have hraw := hagree _ hanswer r rfl
    exact ⟨hraw, hraw ▸ hconsistent⟩
  -- the certified effects are those of any of its signers
  have hdata : response.effectsCert.data = effects := by
    obtain ⟨s, hs⟩ := CertifiedTransactionEffects.exists_signature_of_verify_eq_ok hsourced.verified
    obtain ⟨r, hr, hsigned⟩ := hsourced.signed s hs
    rw [← (hpassed r hr).1, hsigned]
  exact ⟨hdata, consistentWith_of_keptFrom eventsDigest computeObjectReference hsourced.kept
    fun r hr => (hpassed r hr).2⟩

end ProcessCertificateResult

@[instance] theorem four_neZero : NeZero (4 : ℕ) := ⟨by decide⟩

/-- Four validators of equal weight: any three make a quorum. -/
def fourValidators : Committee (Fin 4) := ⟨0, fun _ => 2500, fun a => some a.val, fun _ h => absurd h (Option.some_ne_none _)⟩

/-- A digest of events: the sum of their values. -/
def sumDigest (events : TransactionEvents ℕ) : ℕ := events.data.sum

/-- Two effects of one transaction that differ in their events and in the
version of the object it read. -/
def effectsOne : TransactionEffects := ⟨7, some 1, [⟨5, 1, 1⟩], []⟩

def effectsTwo : TransactionEffects := ⟨7, some 2, [⟨5, 2, 2⟩], []⟩

/-- The answer of validator `a` that signed `effects`, with one event and one
input object; an object here is its own reference. -/
def signedAnswer (a : Fin 4) (effects : TransactionEffects) (event : ℕ) (input : ObjectRef) :
    Except (IotaError (Fin 4)) (HandleCertificateResponseV1 (Fin 4) ℕ ObjectRef) :=
  .ok ⟨⟨effects, ⟨0, a, true⟩⟩, some ⟨[event]⟩, some [input], none⟩

/-- Validator `0` answers first, with effects of its own and the events and
input object those record; the other three agree on other effects. -/
def splitAnswers : List (Fin 4 × Except (IotaError (Fin 4)) (HandleCertificateResponseV1 (Fin 4) ℕ ObjectRef)) :=
  [(0, signedAnswer 0 effectsOne 1 ⟨5, 1, 1⟩), (1, signedAnswer 1 effectsTwo 2 ⟨5, 2, 2⟩),
    (2, signedAnswer 2 effectsTwo 2 ⟨5, 2, 2⟩), (3, signedAnswer 3 effectsTwo 2 ⟨5, 2, 2⟩)]

theorem processCertificate_splitAnswers :
    processCertificate fourValidators (fun _ => true) (safeClientResponses sumDigest id 7 splitAnswers) =
      .ok ⟨⟨effectsTwo, ⟨0, [⟨0, 1, true⟩, ⟨0, 2, true⟩, ⟨0, 3, true⟩]⟩⟩, some ⟨[1]⟩, some [⟨5, 1, 1⟩], none⟩ := by
  decide

theorem processCertificate_sourced_splitAnswers :
    ∃ response, processCertificate fourValidators (fun _ => true)
        (safeClientResponses sumDigest id 7 splitAnswers) = .ok response ∧
      response.Sourced fourValidators fun r => ∃ a, (a, .ok r) ∈ safeClientResponses sumDigest id 7 splitAnswers :=
  ⟨_, processCertificate_splitAnswers,
    processCertificate_sourced fourValidators (fun _ => true) _ processCertificate_splitAnswers⟩

/-- Every answer passes its safe client, and the certificate verifies, yet the
events and the input object returned with it are validator `0`'s, which the
certified effects do not record. -/
theorem processCertificate_returns_data_of_other_effects :
    safeClientResponses sumDigest id 7 splitAnswers = splitAnswers ∧
      ∃ response, processCertificate fourValidators (fun _ => true)
          (safeClientResponses sumDigest id 7 splitAnswers) = .ok response ∧
        response.effectsCert.verify fourValidators = .ok response.effectsCert ∧
        response.effectsCert.data = effectsTwo ∧
        ¬ EventsMatch sumDigest response.effectsCert.data.eventsDigest response.events ∧
        ¬ ObjectsMatch id response.effectsCert.data.oldObjectMetadata response.inputObjects := by
  refine ⟨by decide, _, processCertificate_splitAnswers, by decide, rfl, ?_, ?_⟩
  · intro hmatch
    rcases hmatch ⟨[1]⟩ rfl with hdigest | ⟨hdigest, -⟩ <;> simp [effectsTwo, sumDigest] at hdigest
  · intro hmatch
    have hlookup := hmatch [⟨5, 1, 1⟩] rfl ⟨5, 1, 1⟩ (List.mem_singleton_self _)
    exact absurd hlookup (by decide)

/-- Validators `1` to `3` alone, all on the same effects. -/
def agreeingAnswers : List (Fin 4 × Except (IotaError (Fin 4)) (HandleCertificateResponseV1 (Fin 4) ℕ ObjectRef)) :=
  [(1, signedAnswer 1 effectsTwo 2 ⟨5, 2, 2⟩), (2, signedAnswer 2 effectsTwo 2 ⟨5, 2, 2⟩),
    (3, signedAnswer 3 effectsTwo 2 ⟨5, 2, 2⟩)]

theorem processCertificate_consistent_agreeingAnswers :
    (∀ x ∈ agreeingAnswers, ∀ r, x.2 = .ok r → r.signedEffects.data = effectsTwo) ∧
      ∃ response, processCertificate fourValidators (fun _ => true)
          (safeClientResponses sumDigest id 7 agreeingAnswers) = .ok response ∧
        response.effectsCert.data = effectsTwo ∧
        ConsistentWith sumDigest id effectsTwo response.events response.inputObjects response.outputObjects := by
  have hagree : ∀ x ∈ agreeingAnswers, ∀ r, x.2 = .ok r → r.signedEffects.data = effectsTwo := by
    intro x hx r hr
    simp only [agreeingAnswers, List.mem_cons, List.not_mem_nil, or_false] at hx
    rcases hx with rfl | rfl | rfl <;> cases hr <;> rfl
  have hrun : processCertificate fourValidators (fun _ => true) (safeClientResponses sumDigest id 7 agreeingAnswers) =
      .ok ⟨⟨effectsTwo, ⟨0, [⟨0, 1, true⟩, ⟨0, 2, true⟩, ⟨0, 3, true⟩]⟩⟩, some ⟨[2]⟩, some [⟨5, 2, 2⟩], none⟩ := by
    decide
  exact ⟨hagree, _, hrun,
    processCertificate_consistent_of_agreement fourValidators sumDigest id (fun _ => true) 7 effectsTwo agreeingAnswers
      hagree hrun⟩

end Iota.Core.AuthorityAggregator
