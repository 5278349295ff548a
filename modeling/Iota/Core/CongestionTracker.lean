import Iota.Core.Transaction
import Iota.Lib.BinarySearch
import Iota.Lib.Except

/-! `SharedObjectCongestionTracker`
(`authority/shared_object_congestion_tracker.rs`). Within one consensus commit
every shared object keeps its free execution slots, sorted by start time. A
certificate is scheduled at a start time where a slot of its estimated duration
is free for all its shared objects, either the lowest such time or the latest
start of the objects' last free slots, or it is deferred; a scheduled
certificate then occupies its slot on the objects it uses mutably. Execution
times are `u64`s, naturals below `2^64`; a panic is an error with the source's
message. -/

namespace Iota.Core.Congestion

open Iota.Lib

def MAX_EXECUTION_TIME : ℕ := 2 ^ 64 - 1

inductive PerObjectCongestionControlMode
  | none
  | totalGasBudget
  | totalTxCount
  deriving DecidableEq, Repr

structure ExecutionSlot where
  startTime : ℕ
  endTime : ℕ
  deriving DecidableEq, Repr

namespace ExecutionSlot

/-- `ExecutionSlot::new`; that the start is below the end is only a debug assertion. -/
def new (startTime endTime : ℕ) : ExecutionSlot := ⟨startTime, endTime⟩

def duration (slot : ExecutionSlot) : ℕ := slot.endTime - slot.startTime

def intersection (slot other : ExecutionSlot) : Option ExecutionSlot :=
  let startTime := max slot.startTime other.startTime
  let endTime := min slot.endTime other.endTime
  if startTime < endTime then some (new startTime endTime) else none

def maxDurationSlot : ExecutionSlot := new 0 MAX_EXECUTION_TIME

/-- `Equal` when `other` lies in `slot`; the comparator of the binary search in `remove`. -/
def contains (slot other : ExecutionSlot) : Ordering :=
  if slot.endTime < other.endTime then .lt
  else if slot.startTime > other.startTime then .gt
  else .eq

end ExecutionSlot

/-- The free execution slots of one object. -/
structure ObjectExecutionSlots where
  slots : List ExecutionSlot
  deriving DecidableEq, Repr

namespace ObjectExecutionSlots

def new : ObjectExecutionSlots := ⟨[ExecutionSlot.maxDurationSlot]⟩

/-- The start of the last free slot, when a transaction of the duration fits
between it and `MAX_EXECUTION_TIME`. -/
def maxObjectFreeSlotStartTime (self : ObjectExecutionSlots) (txDuration : ℕ) : Option ℕ :=
  match self.slots.getLast? with
  | some lastFreeSlot =>
    if MAX_EXECUTION_TIME - lastFreeSlot.startTime ≥ txDuration then some lastFreeSlot.startTime else none
  | none => none

def maxObjectOccupiedSlotEndTime (self : ObjectExecutionSlots) : ℕ :=
  (self.maxObjectFreeSlotStartTime 0).getD MAX_EXECUTION_TIME

/-- The free slot holding `slot`, found by binary search, is split around it. -/
def remove (self : ObjectExecutionSlots) (slot : ExecutionSlot) : Except String ObjectExecutionSlots := do
  let index ← match binarySearchBy self.slots (·.contains slot) with
    | .ok index => pure index
    | .error _ => throw "can't remove a slot that is not available"
  let freeSlot ← match self.slots[index]? with
    | some freeSlot => pure freeSlot
    | none => throw "removal index should be < len"
  let slots := self.slots.eraseIdx index
  -- case A: a part of the free slot remains at the start
  let (slots, index) :=
    if slot.startTime > freeSlot.startTime then
      (slots.insertIdx index (ExecutionSlot.new freeSlot.startTime slot.startTime), index + 1)
    else (slots, index)
  -- case B: a part of the free slot remains at the end
  let slots :=
    if slot.endTime < freeSlot.endTime then slots.insertIdx index (ExecutionSlot.new slot.endTime freeSlot.endTime)
    else slots
  pure ⟨slots⟩

end ObjectExecutionSlots

/-- What the tracker reads of a certificate: its digest, its gas budget and its
shared inputs. -/
structure Certificate where
  transaction : VerifiedExecutableTransaction
  gasBudget : ℕ

namespace Certificate

def digest (cert : Certificate) : ℕ := cert.transaction.digest

def sharedInputObjects (cert : Certificate) : List SharedInputObject := cert.transaction.data.sharedInputObjects

def containsSharedObject (cert : Certificate) : Bool := cert.transaction.data.containsSharedObject

end Certificate

inductive DeferralKey
  | randomness (deferredFromRound : ℕ)
  | consensusRound (futureRound deferredFromRound : ℕ)
  deriving DecidableEq, Repr

def DeferralKey.newForConsensusRound (futureRound deferredFromRound : ℕ) : DeferralKey :=
  .consensusRound futureRound deferredFromRound

def DeferralKey.deferredFromRound : DeferralKey → ℕ
  | .randomness deferredFromRound => deferredFromRound
  | .consensusRound _ deferredFromRound => deferredFromRound

inductive SequencingResult
  | schedule (startTime : ℕ)
  | defer (deferralKey : DeferralKey) (congestedObjects : List ℕ)
  deriving DecidableEq, Repr

structure SharedObjectCongestionTracker where
  objectExecutionSlots : ℕ → Option ObjectExecutionSlots
  mode : PerObjectCongestionControlMode
  assignMinFreeExecutionSlot : Bool

namespace SharedObjectCongestionTracker

def new (mode : PerObjectCongestionControlMode) (assignMinFreeExecutionSlot : Bool) : SharedObjectCongestionTracker :=
  ⟨fun _ => none, mode, assignMinFreeExecutionSlot⟩

/-- `object_execution_slots.get(&id).expect(message)`. -/
def expectSlots (self : SharedObjectCongestionTracker) (id : ℕ) (message : String) :
    Except String ObjectExecutionSlots :=
  match self.objectExecutionSlots id with
  | some slots => pure slots
  | none => throw message

/-- Every object not tracked yet gets the whole time range free. -/
def initializeObjectExecutionSlots (self : SharedObjectCongestionTracker)
    (sharedInputObjects : List SharedInputObject) : SharedObjectCongestionTracker :=
  sharedInputObjects.foldl (fun self obj =>
    match self.objectExecutionSlots obj.id with
    | some _ => self
    | none => { self with objectExecutionSlots := Function.update self.objectExecutionSlots obj.id (some .new) })
    self

/-- The lowest start time in `lookupInterval` at which every object has a free
slot of the duration: the free slots of the first object, cut to the
interval, are tried in order, and each is searched for the remaining objects. -/
def computeMinFreeExecutionSlot (self : SharedObjectCongestionTracker) :
    List SharedInputObject → ℕ → ExecutionSlot → Except String (Option ℕ)
  | [], _, _ => throw "shared_input_objects must not be empty."
  | obj :: remainingObjects, txDuration, lookupInterval => do
    let slots ← self.expectSlots obj.id "object should have been inserted before."
    (slots.slots.filterMap (·.intersection lookupInterval)).findSomeM? fun intersectionSlot =>
      if intersectionSlot.duration < txDuration then pure none
      else if remainingObjects.isEmpty then pure (some intersectionSlot.startTime)
      else computeMinFreeExecutionSlot self remainingObjects txDuration intersectionSlot

def computeTxStartTime (self : SharedObjectCongestionTracker) (sharedInputObjects : List SharedInputObject)
    (txDuration : ℕ) : Except String (Option ℕ) :=
  if self.assignMinFreeExecutionSlot then
    self.computeMinFreeExecutionSlot sharedInputObjects txDuration ExecutionSlot.maxDurationSlot
  else do
    let objectStartTimes ← sharedInputObjects.mapM fun obj => do
      let slots ← self.expectSlots obj.id "object should have been inserted at the start of this function."
      pure (slots.maxObjectFreeSlotStartTime txDuration)
    if objectStartTimes.all (·.isSome) then
      -- `.max().unwrap()`
      match (objectStartTimes.filterMap id).max? with
      | some startTime => pure (some startTime)
      | none => throw "called `Option::unwrap()` on a `None` value"
    else pure none

def getEstimatedExecutionDuration (self : SharedObjectCongestionTracker) (cert : Certificate) : ℕ :=
  match self.mode with
  | .none => 0
  | .totalGasBudget => cert.gasBudget
  | .totalTxCount => 1

/-- The objects blamed for a deferral: all of them when the lowest free slot is
searched, otherwise those whose last occupied slot leaves no room. -/
def congestedObjects (self : SharedObjectCongestionTracker) (sharedInputObjects : List SharedInputObject)
    (txDuration maxExecutionDurationPerCommit : ℕ) : Except String (List ℕ) :=
  if self.assignMinFreeExecutionSlot then pure (sharedInputObjects.map (·.id))
  else
    (·.map (·.id)) <$> sharedInputObjects.filterM fun obj => do
      let slots ← self.expectSlots obj.id "object should have been inserted before."
      -- `overflowing_add` on `u64`
      let sum := slots.maxObjectOccupiedSlotEndTime + txDuration
      let endTime := sum % 2 ^ 64
      let overflow := decide (2 ^ 64 ≤ sum)
      pure (overflow || decide (endTime > maxExecutionDurationPerCommit))

def trySchedule (self : SharedObjectCongestionTracker) (cert : Certificate) (maxExecutionDurationPerCommit : ℕ)
    (previouslyDeferredTxDigests : ℕ → Option DeferralKey) (commitRound : ℕ) : Except String SequencingResult := do
  let txDuration := self.getEstimatedExecutionDuration cert
  if txDuration = 0 then pure (.schedule 0)
  else
    let sharedInputObjects := cert.sharedInputObjects
    if sharedInputObjects.isEmpty then pure (.schedule 0)
    else
      let startTime ← self.computeTxStartTime sharedInputObjects txDuration
      match startTime.filter (· + txDuration ≤ maxExecutionDurationPerCommit) with
      | some startTime => pure (.schedule startTime)
      | none =>
        let congestedObjects ←
          self.congestedObjects sharedInputObjects txDuration maxExecutionDurationPerCommit
        if congestedObjects.isEmpty then throw "assertion failed: !congested_objects.is_empty()"
        else
          let deferralKey :=
            match previouslyDeferredTxDigests cert.digest with
            | some previousKey => DeferralKey.newForConsensusRound (commitRound + 1) previousKey.deferredFromRound
            | none => DeferralKey.newForConsensusRound (commitRound + 1) commitRound
          pure (.defer deferralKey congestedObjects)

/-- The certificate's slot is taken from the free slots of the objects it
writes. -/
def bumpObjectExecutionSlots (self : SharedObjectCongestionTracker) (cert : Certificate) (startTime : ℕ) :
    Except String SharedObjectCongestionTracker :=
  let txDuration := self.getEstimatedExecutionDuration cert
  if txDuration = 0 then pure self
  else
    -- `saturating_add` on `u64`
    let endTime := min (startTime + txDuration) MAX_EXECUTION_TIME
    let occupiedSlot := ExecutionSlot.new startTime endTime
    (cert.sharedInputObjects.filter (·.mutable)).foldlM (fun self obj => do
      let slots ← self.expectSlots obj.id "object execution slot should have been initialized before."
      let slots ← slots.remove occupiedSlot
      pure { self with objectExecutionSlots := Function.update self.objectExecutionSlots obj.id (some slots) })
      self

end SharedObjectCongestionTracker

/-- The tracker of a commit, and the certificates it scheduled with their start
times. -/
structure Commit where
  tracker : SharedObjectCongestionTracker
  scheduled : List (Certificate × ℕ)

namespace Commit

def new (mode : PerObjectCongestionControlMode) (assignMinFreeExecutionSlot : Bool) : Commit :=
  ⟨.new mode assignMinFreeExecutionSlot, []⟩

/-- The consensus handler on one certificate (`try_schedule` of the epoch
store, then the bump of a scheduled certificate with shared objects). -/
def handleCertificate (maxExecutionDurationPerCommit : ℕ) (previouslyDeferredTxDigests : ℕ → Option DeferralKey)
    (commitRound : ℕ) (c : Commit) (cert : Certificate) : Except String (Commit × SequencingResult) := do
  let tracker := c.tracker.initializeObjectExecutionSlots cert.sharedInputObjects
  let result ← tracker.trySchedule cert maxExecutionDurationPerCommit previouslyDeferredTxDigests commitRound
  match result with
  | .schedule startTime =>
    let tracker ← if cert.containsSharedObject then tracker.bumpObjectExecutionSlots cert startTime else pure tracker
    pure (⟨tracker, c.scheduled ++ [(cert, startTime)]⟩, result)
  | .defer _ _ => pure (⟨tracker, c.scheduled⟩, result)

def handleCertificates (maxExecutionDurationPerCommit : ℕ) (previouslyDeferredTxDigests : ℕ → Option DeferralKey)
    (commitRound : ℕ) (c : Commit) (certs : List Certificate) : Except String Commit :=
  certs.foldlM (fun c cert =>
    Prod.fst <$> c.handleCertificate maxExecutionDurationPerCommit previouslyDeferredTxDigests commitRound cert) c

end Commit

end Iota.Core.Congestion
