import Mathlib
import Iota.Core.BaseTypes
import Iota.Lib.Except
import Iota.Lib.Interleaving

/-! `ObjectLocks` (`crates/iota-core/src/execution_cache/object_locks.rs`):
the owned-object locks a validator takes before it signs a transaction.

Each call of `acquire_transaction_locks` is a thread.  Its atomic steps are
those the source makes atomic: the liveness check, each
`try_set_transaction_lock` (the `DashMap` entry is held across the database
read), the batch write of the locks, and each entry of `clear_cached_locks`.
Calls interleave between these steps in any order.  The database table is
the epoch store's `owned_object_locked_transactions`; within one epoch its
`tables()` never fails, and storage errors are not modelled.  A lock
(`LockDetails`) is a transaction digest. -/

namespace Iota.Core

open Iota.Lib

/-- The `IotaError`s of lock acquisition. -/
inductive IotaError
  | objectNotFound (objectId : ℕ)
  | objectVersionUnavailableForConsumption (providedObjRef : ObjectRef) (currentVersion : ℕ)
  | invalidObjectDigest (objectId expectedDigest : ℕ)
  | objectLockConflict (objRef : ObjectRef) (pendingTransaction : ℕ)
  deriving DecidableEq, Repr

/-- What `clear_cached_locks` stops on: `debug_fatal!("lock must exist for
object: {:?}")` and `panic!("lock was changed since we set it")`. -/
inductive LockPanic
  | lockMustExist (objRef : ObjectRef)
  | lockChanged
  deriving DecidableEq, Repr

/-- The in-memory `locked_transactions` map, from an object reference to its
reference count and lock, and the database table of written locks. -/
structure LockTables where
  lockedTransactions : ObjectRef → Option (ℕ × ℕ)
  ownedObjectLockedTransactions : ObjectRef → Option ℕ

namespace LockTables

variable (t : LockTables)

def getLockedTransaction (objRef : ObjectRef) : Option ℕ := t.ownedObjectLockedTransactions objRef

/-- `try_set_transaction_lock`.  A vacant entry takes the lock written in the
database, or the new one; an occupied entry keeps its lock.  Either way the
count goes up, also when the locks conflict. -/
def trySetTransactionLock (objRef : ObjectRef) (newLock : ℕ) : LockTables × Except IotaError Unit :=
  let (count, prevLock) :=
    match t.lockedTransactions objRef with
    | none => (1, (t.getLockedTransaction objRef).getD newLock)
    | some (count, lock) => (count + 1, lock)
  ({ t with lockedTransactions := Function.update t.lockedTransactions objRef (some (count, prevLock)) },
    if prevLock ≠ newLock then .error (.objectLockConflict objRef prevLock) else .ok ())

/-- One entry of `clear_cached_locks`: the count goes down, and the entry goes
when it reaches zero. -/
def clearCachedLock (objRef : ObjectRef) (lock : ℕ) : Except LockPanic LockTables :=
  match t.lockedTransactions objRef with
  | none => .error (.lockMustExist objRef)
  | some (count, l) =>
    if l = lock then
      .ok { t with lockedTransactions := (Function.update t.lockedTransactions objRef
        (if count - 1 = 0 then none else some (count - 1, l))) }
    else .error .lockChanged

/-- `write_transaction_locks`, one batch. -/
def writeTransactionLocks (locks : List ObjectRef) (tx : ℕ) : LockTables :=
  { t with ownedObjectLockedTransactions :=
      fun o => if o ∈ locks then some tx else t.ownedObjectLockedTransactions o }

end LockTables

/-- `multi_get_objects_must_exist`: the live object of each id, as its
reference. -/
def multiGetObjectsMustExist (liveObject : ℕ → Option ObjectRef) (objectIds : List ℕ) :
    Except IotaError (List ObjectRef) :=
  objectIds.mapM fun id =>
    match liveObject id with
    | some o => .ok o
    | none => .error (.objectNotFound id)

def verifyLiveObject (objRef liveObject : ObjectRef) : Except IotaError Unit :=
  if objRef.version ≠ liveObject.version then
    .error (.objectVersionUnavailableForConsumption objRef liveObject.version)
  else if objRef.digest ≠ liveObject.digest then
    .error (.invalidObjectDigest objRef.id liveObject.digest)
  else .ok ()

/-- "Only live objects can be locked". -/
def checkLiveObjects (liveObject : ℕ → Option ObjectRef) (ownedInputObjects : List ObjectRef) :
    Except IotaError Unit := do
  let liveObjects ← multiGetObjectsMustExist liveObject (ownedInputObjects.map ObjectRef.id)
  (ownedInputObjects.zip liveObjects).forM fun (o, live) => verifyLiveObject o live

/-- Where a call of `acquire_transaction_locks` stands between two atomic
steps: locking the inputs in order, writing the locks, clearing the cached
ones it set (with the result it will return), or finished. -/
inductive Phase
  | start
  | locking (next acquired : List ObjectRef)
  | writing (acquired : List ObjectRef)
  | clearing (rest : List ObjectRef) (result : Except IotaError Unit)
  | done (result : Except IotaError Unit)
  | panicked (p : LockPanic)
  deriving DecidableEq

structure AcquireCall where
  tx : ℕ
  ownedInputObjects : List ObjectRef
  phase : Phase
  deriving DecidableEq

namespace AcquireCall

/-- The inputs in the order they are locked: by object id. -/
def sortedInputs (c : AcquireCall) : List ObjectRef :=
  c.ownedInputObjects.insertionSort (fun a b => a.id ≤ b.id)

/-- One atomic step of the call. -/
def move (liveObject : ℕ → Option ObjectRef) (t : LockTables) (c : AcquireCall) :
    LockTables × AcquireCall :=
  match c.phase with
  | .start =>
    match checkLiveObjects liveObject c.ownedInputObjects with
    | .error e => (t, { c with phase := .done (.error e) })
    | .ok () => (t, { c with phase := .locking c.sortedInputs [] })
  | .locking [] acquired => (t, { c with phase := .writing acquired })
  | .locking (o :: rest) acquired =>
    match t.trySetTransactionLock o c.tx with
    | (t', .ok ()) => (t', { c with phase := .locking rest (acquired ++ [o]) })
    -- "revert all pending writes and return error"
    | (t', .error e) => (t', { c with phase := .clearing acquired (.error e) })
  | .writing acquired =>
    (t.writeTransactionLocks acquired c.tx, { c with phase := .clearing acquired (.ok ()) })
  | .clearing [] result => (t, { c with phase := .done result })
  | .clearing (o :: rest) result =>
    match t.clearCachedLock o c.tx with
    | .ok t' => (t', { c with phase := .clearing rest result })
    | .error p => (t, { c with phase := .panicked p })
  | .done _ => (t, c)
  | .panicked _ => (t, c)

end AcquireCall

/-- Concurrent calls over the shared lock tables. -/
abbrev Calls := Threads LockTables AcquireCall

/-- Calls made with an empty in-memory map and the database as it is. -/
def Calls.init (db : ObjectRef → Option ℕ) (calls : List (ℕ × List ObjectRef)) : Calls :=
  ⟨⟨fun _ => none, db⟩, calls.map fun (tx, inputs) => ⟨tx, inputs, .start⟩⟩

/-- Two owned objects, live at version 1. -/
def lockO1 : ObjectRef := ⟨1, 1, 1⟩

def lockO2 : ObjectRef := ⟨2, 1, 1⟩

def lockLive (id : ℕ) : Option ObjectRef :=
  if id = 1 then some lockO1 else if id = 2 then some lockO2 else none

/-! ### Exclusivity, over every interleaving

A call holds the entries it has set and not yet cleared (`held`).  Every
holder of an entry is counted in it, and holds it with its own lock; an entry
agrees with the lock written in the database.  A call writes only locks it
holds, so a written lock never changes, and a call that returns `Ok` has
written all its inputs.  The count can exceed the holders: a conflicting
call raises it and never lowers it again. -/

namespace AcquireCall

def held (c : AcquireCall) : List ObjectRef :=
  match c.phase with
  | .locking _ acquired => acquired
  | .writing acquired => acquired
  | .clearing rest _ => rest
  | _ => []

/-- The call has written its locks and will return `Ok`. -/
def committed (c : AcquireCall) : Bool :=
  match c.phase with
  | .clearing _ result => result.toBool
  | .done result => result.toBool
  | _ => false

/-- The inputs split into those locked and those still to lock. -/
def Shaped (c : AcquireCall) : Prop :=
  match c.phase with
  | .locking next acquired => acquired ++ next = c.sortedInputs
  | .writing acquired => acquired = c.sortedInputs
  | _ => True

def Panicked (c : AcquireCall) : Prop := ∃ p, c.phase = .panicked p

end AcquireCall

def LockTables.refCount (t : LockTables) (o : ObjectRef) : ℕ :=
  match t.lockedTransactions o with
  | none => 0
  | some (count, _) => count

def heldCount (calls : List AcquireCall) (o : ObjectRef) : ℕ :=
  (calls.map fun c => c.held.count o).sum

structure Inv (s : Calls) : Prop where
  count_pos : ∀ o k l, s.shared.lockedTransactions o = some (k, l) → 0 < k
  held_le : ∀ o, heldCount s.threads o ≤ s.shared.refCount o
  held_lock : ∀ c ∈ s.threads, ∀ o ∈ c.held, ∃ k, s.shared.lockedTransactions o = some (k, c.tx)
  db_lock : ∀ o T k l, s.shared.ownedObjectLockedTransactions o = some T →
    s.shared.lockedTransactions o = some (k, l) → l = T
  shaped : ∀ c ∈ s.threads, c.Shaped
  committed : ∀ c ∈ s.threads, c.committed → ∀ o ∈ c.ownedInputObjects,
    s.shared.ownedObjectLockedTransactions o = some c.tx
  not_panicked : ∀ c ∈ s.threads, ¬c.Panicked

namespace LockTables

variable {t : LockTables}

/-- The lock an entry keeps, or takes when `try_set_transaction_lock` creates it. -/
def lockFor (t : LockTables) (o : ObjectRef) (newLock : ℕ) : ℕ :=
  match t.lockedTransactions o with
  | none => (t.getLockedTransaction o).getD newLock
  | some (_, lock) => lock

theorem trySetTransactionLock_eq (o : ObjectRef) (newLock : ℕ) :
    t.trySetTransactionLock o newLock =
      ({ t with lockedTransactions :=
          Function.update t.lockedTransactions o (some (t.refCount o + 1, t.lockFor o newLock)) },
        if t.lockFor o newLock ≠ newLock then .error (.objectLockConflict o (t.lockFor o newLock))
        else .ok ()) := by
  unfold trySetTransactionLock lockFor refCount
  cases t.lockedTransactions o <;> rfl

theorem lockFor_eq_of_ok {o : ObjectRef} {newLock : ℕ} (h : (t.trySetTransactionLock o newLock).2 = .ok ()) :
    t.lockFor o newLock = newLock := by
  rw [trySetTransactionLock_eq] at h
  by_contra hne
  simp [hne] at h

theorem clearCachedLock_eq_ok {o : ObjectRef} {lock : ℕ} {t' : LockTables} :
    t.clearCachedLock o lock = .ok t' ↔ ∃ k, t.lockedTransactions o = some (k, lock) ∧
      t' = { t with lockedTransactions := (Function.update t.lockedTransactions o
        (if k - 1 = 0 then none else some (k - 1, lock))) } := by
  unfold clearCachedLock
  rcases h : t.lockedTransactions o with _ | ⟨k, l⟩
  · simp
  · by_cases hl : l = lock
    · subst hl
      simp [eq_comm]
    · simp [hl]

theorem clearCachedLock_ok_of_lock {o : ObjectRef} {k lock : ℕ} (h : t.lockedTransactions o = some (k, lock)) :
    ∃ t', t.clearCachedLock o lock = .ok t' := by
  simp [clearCachedLock, h]

end LockTables

/-- What one step of a call does, case by case. -/
inductive Moves (t : LockTables) (c : AcquireCall) : LockTables → AcquireCall → Prop
  | checkFailed {e} : c.phase = .start → Moves t c t { c with phase := .done (.error e) }
  | checked : c.phase = .start → Moves t c t { c with phase := .locking c.sortedInputs [] }
  | lockedAll {acquired} : c.phase = .locking [] acquired → Moves t c t { c with phase := .writing acquired }
  | locked {o rest acquired} : c.phase = .locking (o :: rest) acquired →
      (t.trySetTransactionLock o c.tx).2 = .ok () →
      Moves t c (t.trySetTransactionLock o c.tx).1 { c with phase := .locking rest (acquired ++ [o]) }
  | conflicted {o rest acquired e} : c.phase = .locking (o :: rest) acquired →
      (t.trySetTransactionLock o c.tx).2 = .error e →
      Moves t c (t.trySetTransactionLock o c.tx).1 { c with phase := .clearing acquired (.error e) }
  | wrote {acquired} : c.phase = .writing acquired →
      Moves t c (t.writeTransactionLocks acquired c.tx) { c with phase := .clearing acquired (.ok ()) }
  | cleared {result} : c.phase = .clearing [] result → Moves t c t { c with phase := .done result }
  | clearedOne {o rest result t'} : c.phase = .clearing (o :: rest) result →
      t.clearCachedLock o c.tx = .ok t' → Moves t c t' { c with phase := .clearing rest result }
  | panicked {o rest result p} : c.phase = .clearing (o :: rest) result →
      t.clearCachedLock o c.tx = .error p → Moves t c t { c with phase := .panicked p }
  | idle : (∃ r, c.phase = .done r) ∨ c.Panicked → Moves t c t c

theorem moves_move (live : ℕ → Option ObjectRef) (t : LockTables) (c : AcquireCall) :
    Moves t c (c.move live t).1 (c.move live t).2 := by
  unfold AcquireCall.move
  split
  · rename_i h
    split
    · exact .checkFailed h
    · exact .checked h
  · exact .lockedAll ‹_›
  · rename_i o rest acquired h
    rcases hset : t.trySetTransactionLock o c.tx with ⟨t', result⟩
    rcases result with e | ⟨⟩
    · have := Moves.conflicted (t := t) h (e := e) (by rw [hset])
      simpa [hset] using this
    · have := Moves.locked (t := t) h (by rw [hset])
      simpa [hset] using this
  · exact .wrote ‹_›
  · exact .cleared ‹_›
  · rename_i o rest result h
    rcases hclear : t.clearCachedLock o c.tx with p | t'
    · simpa using Moves.panicked h hclear
    · simpa using Moves.clearedOne h hclear
  · exact .idle (.inl ⟨_, ‹_›⟩)
  · exact .idle (.inr ⟨_, ‹_›⟩)

namespace LockTables

variable {t : LockTables}

theorem lockedTransactions_trySet (o : ObjectRef) (newLock : ℕ) (o' : ObjectRef) :
    (t.trySetTransactionLock o newLock).1.lockedTransactions o' =
      if o' = o then some (t.refCount o + 1, t.lockFor o newLock) else t.lockedTransactions o' := by
  simp only [trySetTransactionLock_eq, Function.update_apply]

@[simp] theorem db_trySet (o : ObjectRef) (newLock : ℕ) :
    (t.trySetTransactionLock o newLock).1.ownedObjectLockedTransactions = t.ownedObjectLockedTransactions := by
  rw [trySetTransactionLock_eq]

theorem refCount_trySet (o : ObjectRef) (newLock : ℕ) (o' : ObjectRef) :
    (t.trySetTransactionLock o newLock).1.refCount o' = if o' = o then t.refCount o + 1 else t.refCount o' := by
  unfold refCount
  rw [lockedTransactions_trySet]
  split_ifs <;> rfl

theorem lockFor_of_lock {o : ObjectRef} {newLock k l : ℕ} (h : t.lockedTransactions o = some (k, l)) :
    t.lockFor o newLock = l := by
  simp [lockFor, h]

theorem refCount_of_lock {o : ObjectRef} {k l : ℕ} (h : t.lockedTransactions o = some (k, l)) :
    t.refCount o = k := by
  simp [refCount, h]

theorem lockedTransactions_of_clear {o : ObjectRef} {lock : ℕ} {t' : LockTables}
    (h : t.clearCachedLock o lock = .ok t') (o' : ObjectRef) :
    t'.lockedTransactions o' = if o' = o then
      (if t.refCount o - 1 = 0 then none else some (t.refCount o - 1, lock)) else t.lockedTransactions o' := by
  obtain ⟨k, hk, rfl⟩ := Iff.mp clearCachedLock_eq_ok h
  simp only [Function.update_apply, refCount_of_lock hk]

theorem db_of_clear {o : ObjectRef} {lock : ℕ} {t' : LockTables} (h : t.clearCachedLock o lock = .ok t') :
    t'.ownedObjectLockedTransactions = t.ownedObjectLockedTransactions := by
  obtain ⟨k, -, rfl⟩ := Iff.mp clearCachedLock_eq_ok h
  rfl

theorem refCount_of_clear {o : ObjectRef} {lock : ℕ} {t' : LockTables}
    (h : t.clearCachedLock o lock = .ok t') (o' : ObjectRef) :
    t'.refCount o' = if o' = o then t.refCount o - 1 else t.refCount o' := by
  unfold refCount
  rw [lockedTransactions_of_clear h]
  split_ifs with h₁ h₂ <;> simp_all [refCount]

theorem lock_of_clear {o : ObjectRef} {lock : ℕ} {t' : LockTables} (h : t.clearCachedLock o lock = .ok t') :
    ∃ k, t.lockedTransactions o = some (k, lock) := by
  obtain ⟨k, hk, -⟩ := Iff.mp clearCachedLock_eq_ok h
  exact ⟨k, hk⟩

end LockTables

namespace Moves

variable {t t' : LockTables} {c c' : AcquireCall}

theorem tx_eq (h : Moves t c t' c') : c'.tx = c.tx := by
  cases h <;> rfl

theorem inputs_eq (h : Moves t c t' c') : c'.ownedInputObjects = c.ownedInputObjects := by
  cases h <;> rfl

theorem held_count_le (h : Moves t c t' c') (o : ObjectRef) :
    c'.held.count o + t.refCount o ≤ c.held.count o + t'.refCount o := by
  cases h with
  | checkFailed hp | checked hp | cleared hp => simp [AcquireCall.held, hp]
  | lockedAll hp | wrote hp => simp [AcquireCall.held, hp, LockTables.refCount, LockTables.writeTransactionLocks]
  | @locked o₀ _ _ hp _ =>
    simp only [AcquireCall.held, hp, List.count_append, List.count_singleton, beq_iff_eq,
      LockTables.refCount_trySet]
    by_cases ho : o = o₀
    · subst ho
      simp
      omega
    · simp [ho, Ne.symm ho]
  | @conflicted o₀ _ _ _ hp _ =>
    simp only [AcquireCall.held, hp, LockTables.refCount_trySet]
    split_ifs with ho
    · subst ho
      omega
    · omega
  | @clearedOne o₀ _ _ _ hp hclear =>
    simp only [AcquireCall.held, hp, List.count_cons, beq_iff_eq, LockTables.refCount_of_clear hclear]
    by_cases ho : o = o₀
    · subst ho
      simp
      omega
    · simp [ho]
  | panicked hp _ => simp [AcquireCall.held, hp]
  | idle => rfl

theorem lock_kept (h : Moves t c t' c') {o : ObjectRef} {k l : ℕ} (hl : t.lockedTransactions o = some (k, l)) :
    t'.lockedTransactions o = none ∨ ∃ k', t'.lockedTransactions o = some (k', l) := by
  cases h with
  | locked _ _ | conflicted _ _ =>
    rw [LockTables.lockedTransactions_trySet]
    split_ifs with ho
    · subst ho
      exact .inr ⟨_, by rw [LockTables.lockFor_of_lock hl]⟩
    · exact .inr ⟨k, hl⟩
  | wrote _ => exact .inr ⟨k, hl⟩
  | @clearedOne o₀ _ _ _ _ hclear =>
    rw [LockTables.lockedTransactions_of_clear hclear]
    split_ifs with ho hz
    · exact .inl rfl
    · subst ho
      obtain ⟨k₀, hk₀⟩ := LockTables.lock_of_clear hclear
      rw [hl, Option.some.injEq, Prod.mk.injEq] at hk₀
      exact .inr ⟨_, by rw [hk₀.2]⟩
    · exact .inr ⟨k, hl⟩
  | checkFailed _ | checked _ | lockedAll _ | cleared _ | panicked _ _ | idle _ => exact .inr ⟨k, hl⟩

theorem held_lock (h : Moves t c t' c')
    (hc : ∀ o ∈ c.held, ∃ k, t.lockedTransactions o = some (k, c.tx)) :
    ∀ o ∈ c'.held, t'.lockedTransactions o = none ∨ ∃ k, t'.lockedTransactions o = some (k, c.tx) := by
  have kept : ∀ o ∈ c.held, t'.lockedTransactions o = none ∨ ∃ k, t'.lockedTransactions o = some (k, c.tx) :=
    fun o ho => by
      obtain ⟨k, hk⟩ := hc o ho
      exact h.lock_kept hk
  cases h with
  | @locked o₀ _ _ hp hok =>
    intro o ho
    simp only [AcquireCall.held, hp, List.mem_append, List.mem_singleton] at ho kept
    rcases ho with ho | rfl
    · exact kept o ho
    · rw [LockTables.lockedTransactions_trySet, if_pos rfl, LockTables.lockFor_eq_of_ok hok]
      exact .inr ⟨_, rfl⟩
  | conflicted hp _ | lockedAll hp | wrote hp => simpa [AcquireCall.held, hp] using kept
  | clearedOne hp _ =>
    intro o ho
    simp only [AcquireCall.held, hp, List.mem_cons] at ho kept
    exact kept o (.inr ho)
  | checkFailed _ | checked _ | cleared _ | panicked _ _ => simp [AcquireCall.held]
  | idle => exact kept

section Tables

variable (h : Moves t c t' c')
  (hc : ∀ o ∈ c.held, ∃ k, t.lockedTransactions o = some (k, c.tx))
  (hdb : ∀ o T k l, t.ownedObjectLockedTransactions o = some T → t.lockedTransactions o = some (k, l) → l = T)
include h hc hdb

theorem db_kept {o : ObjectRef} {T : ℕ} (hT : t.ownedObjectLockedTransactions o = some T) :
    t'.ownedObjectLockedTransactions o = some T := by
  cases h with
  | locked _ _ | conflicted _ _ => simpa using hT
  | @wrote acquired hp =>
    simp only [LockTables.writeTransactionLocks]
    split_ifs with ho
    · obtain ⟨k, hk⟩ := hc o (by simpa [AcquireCall.held, hp] using ho)
      rw [hdb o T k c.tx hT hk]
    · exact hT
  | clearedOne _ hclear => rw [LockTables.db_of_clear hclear]; exact hT
  | checkFailed _ | checked _ | lockedAll _ | cleared _ | panicked _ _ | idle _ => exact hT

theorem db_lock_kept : ∀ o T k l, t'.ownedObjectLockedTransactions o = some T →
    t'.lockedTransactions o = some (k, l) → l = T := by
  intro o T k l hT hl
  cases h with
  | locked _ _ | conflicted _ _ =>
    rw [LockTables.db_trySet] at hT
    rw [LockTables.lockedTransactions_trySet] at hl
    split_ifs at hl with ho
    · subst ho
      rw [Option.some.injEq, Prod.mk.injEq] at hl
      rw [← hl.2]
      unfold LockTables.lockFor
      split
      · simp [LockTables.getLockedTransaction, hT]
      · exact hdb o T _ _ hT ‹_›
    · exact hdb o T k l hT hl
  | @wrote acquired hp =>
    simp only [LockTables.writeTransactionLocks] at hT hl
    split_ifs at hT with ho
    · obtain ⟨k', hk'⟩ := hc o (by simpa [AcquireCall.held, hp] using ho)
      rw [hl, Option.some.injEq, Prod.mk.injEq] at hk'
      rw [Option.some.injEq] at hT
      rw [hk'.2, hT]
    · exact hdb o T k l hT hl
  | @clearedOne o₀ _ _ _ _ hclear =>
    rw [LockTables.db_of_clear hclear] at hT
    rw [LockTables.lockedTransactions_of_clear hclear] at hl
    split_ifs at hl with ho hz
    · subst ho
      obtain ⟨k₀, hk₀⟩ := LockTables.lock_of_clear hclear
      rw [Option.some.injEq, Prod.mk.injEq] at hl
      rw [← hl.2]
      exact hdb o T k₀ c.tx hT hk₀
    · exact hdb o T k l hT hl
  | checkFailed _ | checked _ | lockedAll _ | cleared _ | panicked _ _ | idle _ => exact hdb o T k l hT hl

end Tables

theorem count_pos_kept (h : Moves t c t' c') (hpos : ∀ o k l, t.lockedTransactions o = some (k, l) → 0 < k) :
    ∀ o k l, t'.lockedTransactions o = some (k, l) → 0 < k := by
  intro o k l hl
  cases h with
  | locked _ _ | conflicted _ _ =>
    rw [LockTables.lockedTransactions_trySet] at hl
    split_ifs at hl
    · rw [Option.some.injEq, Prod.mk.injEq] at hl
      omega
    · exact hpos o k l hl
  | wrote _ => exact hpos o k l hl
  | clearedOne _ hclear =>
    rw [LockTables.lockedTransactions_of_clear hclear] at hl
    split_ifs at hl with ho hz
    · rw [Option.some.injEq, Prod.mk.injEq] at hl
      omega
    · exact hpos o k l hl
  | checkFailed _ | checked _ | lockedAll _ | cleared _ | panicked _ _ | idle _ => exact hpos o k l hl

theorem shaped_kept (h : Moves t c t' c') (hs : c.Shaped) : c'.Shaped := by
  cases h with
  | checked _ => simp [AcquireCall.Shaped, AcquireCall.sortedInputs]
  | lockedAll hp => simpa [AcquireCall.Shaped, hp, AcquireCall.sortedInputs] using hs
  | locked hp _ => simpa [AcquireCall.Shaped, hp, AcquireCall.sortedInputs] using hs
  | idle _ => exact hs
  | checkFailed _ | conflicted _ _ | wrote _ | cleared _ | clearedOne _ _ | panicked _ _ =>
    simp [AcquireCall.Shaped]

theorem committed_kept (h : Moves t c t' c') (hs : c.Shaped) (hcommitted : c'.committed) :
    c.committed ∨ ∀ o ∈ c.ownedInputObjects, t'.ownedObjectLockedTransactions o = some c.tx := by
  cases h with
  | @wrote acquired hp =>
    refine .inr fun o ho => ?_
    simp only [AcquireCall.Shaped, hp] at hs
    have hmem : o ∈ acquired := by
      rw [hs, AcquireCall.sortedInputs, List.mem_insertionSort]
      exact ho
    simp [LockTables.writeTransactionLocks, hmem]
  | cleared hp | clearedOne hp _ => exact .inl (by simpa [AcquireCall.committed, hp] using hcommitted)
  | idle _ => exact .inl hcommitted
  | checkFailed _ | checked _ | lockedAll _ | locked _ _ | conflicted _ _ | panicked _ _ =>
    simp [AcquireCall.committed, Except.toBool] at hcommitted

theorem not_panicked_kept (h : Moves t c t' c')
    (hc : ∀ o ∈ c.held, ∃ k, t.lockedTransactions o = some (k, c.tx)) (hp : ¬c.Panicked) :
    ¬c'.Panicked := by
  cases h with
  | @panicked o _ _ _ hphase hclear =>
    obtain ⟨k, hk⟩ := hc o (by simp [AcquireCall.held, hphase])
    obtain ⟨t'', ht''⟩ := LockTables.clearCachedLock_ok_of_lock hk
    rw [hclear] at ht''
    contradiction
  | idle _ => exact hp
  | checkFailed _ | checked _ | lockedAll _ | locked _ _ | conflicted _ _ | wrote _ | cleared _
    | clearedOne _ _ => simp [AcquireCall.Panicked]

end Moves

namespace Inv

theorem init (db : ObjectRef → Option ℕ) (calls : List (ℕ × List ObjectRef)) :
    Inv (Calls.init db calls) := by
  -- every call is still at its start, holding nothing
  have hstart : ∀ c ∈ (Calls.init db calls).threads, c.phase = .start := by
    simp only [Calls.init, List.mem_map]
    rintro c ⟨_, _, rfl⟩
    rfl
  have hheld : ∀ c ∈ (Calls.init db calls).threads, c.held = [] := fun c hc => by
    simp [AcquireCall.held, hstart c hc]
  refine ⟨by simp [Calls.init], fun o => ?_, fun c hc => ?_, by simp [Calls.init], fun c hc => ?_,
    fun c hc => ?_, fun c hc => ?_⟩
  · have hzero : heldCount (Calls.init db calls).threads o = 0 := by
      refine List.sum_eq_zero fun n hn => ?_
      obtain ⟨c, hc, rfl⟩ := List.mem_map.mp hn
      simp [hheld c hc]
    simp [hzero]
  · simp [hheld c hc]
  · simp [AcquireCall.Shaped, hstart c hc]
  · simp [AcquireCall.committed, hstart c hc]
  · simp [AcquireCall.Panicked, hstart c hc]

theorem moved {t t' : LockTables} {threads : List AcquireCall} {i : ℕ} (hi : i < threads.length)
    {c' : AcquireCall} (hs : Inv ⟨t, threads⟩) (hm : Moves t threads[i] t' c') :
    Inv ⟨t', threads.set i c'⟩ := by
  have hcmem : threads[i] ∈ threads := List.getElem_mem hi
  have hc := hs.held_lock _ hcmem
  have mem : ∀ d ∈ threads.set i c', d ∈ threads ∨ d = c' := fun d hd => List.mem_or_eq_of_mem_set hd
  -- the count argument comes first: the remaining entries are those still held
  have held_le' : ∀ o, heldCount (threads.set i c') o ≤ t'.refCount o := by
    intro o
    have hsum := sum_map_set_add (fun d => d.held.count o) threads i hi c'
    have hmove := hm.held_count_le o
    have hle := hs.held_le o
    unfold heldCount at hle ⊢
    simp only at hsum hle
    omega
  refine ⟨hm.count_pos_kept hs.count_pos, held_le', ?_, hm.db_lock_kept hc hs.db_lock, ?_, ?_, ?_⟩
  · intro d hd o ho
    have hpos : 0 < t'.refCount o := by
      have hone : 0 < d.held.count o := List.count_pos_iff.mpr ho
      have hsum : d.held.count o ≤ heldCount (threads.set i c') o :=
        List.le_sum_of_mem (List.mem_map_of_mem hd)
      have := held_le' o
      omega
    have hcases : t'.lockedTransactions o = none ∨ ∃ k, t'.lockedTransactions o = some (k, d.tx) := by
      rcases mem d hd with hd | rfl
      · obtain ⟨k, hk⟩ := hs.held_lock d hd o ho
        exact hm.lock_kept hk
      · rw [hm.tx_eq]
        exact hm.held_lock hc o ho
    rcases hcases with hnone | hsome
    · simp [LockTables.refCount, hnone] at hpos
    · exact hsome
  · intro d hd
    rcases mem d hd with hd | rfl
    · exact hs.shaped d hd
    · exact hm.shaped_kept (hs.shaped _ hcmem)
  · intro d hd hcommitted o ho
    rcases mem d hd with hd | rfl
    · exact hm.db_kept hc hs.db_lock (hs.committed d hd hcommitted o ho)
    · rw [hm.tx_eq]
      rw [hm.inputs_eq] at ho
      rcases hm.committed_kept (hs.shaped _ hcmem) hcommitted with hcc | hwritten
      · exact hm.db_kept hc hs.db_lock (hs.committed _ hcmem hcc o ho)
      · exact hwritten o ho
  · intro d hd
    rcases mem d hd with hd | rfl
    · exact hs.not_panicked d hd
    · exact hm.not_panicked_kept hc (hs.not_panicked _ hcmem)

theorem step (live : ℕ → Option ObjectRef) {s : Calls} (hs : Inv s) (i : ℕ) :
    Inv (s.step (AcquireCall.move live) i) :=
  Threads.step_preserves (fun _ _ hi hs => moved hi hs (moves_move live _ _)) s i hs

theorem run (live : ℕ → Option ObjectRef) {s : Calls} (hs : Inv s) (schedule : List ℕ) :
    Inv (s.run (AcquireCall.move live) schedule) :=
  Threads.run_preserves (P := Inv) (fun _ i hs => step live hs i) schedule hs

theorem db_step (live : ℕ → Option ObjectRef) {s : Calls} (hs : Inv s) (i : ℕ) {o : ObjectRef} {T : ℕ}
    (hT : s.shared.ownedObjectLockedTransactions o = some T) :
    (s.step (AcquireCall.move live) i).shared.ownedObjectLockedTransactions o = some T := by
  unfold Threads.step
  split
  · rename_i hi
    exact (moves_move live _ _).db_kept (hs.held_lock _ (List.getElem_mem hi)) hs.db_lock hT
  · exact hT

theorem db_run (live : ℕ → Option ObjectRef) {s : Calls} (hs : Inv s) (schedule : List ℕ) {o : ObjectRef}
    {T : ℕ} (hT : s.shared.ownedObjectLockedTransactions o = some T) :
    (s.run (AcquireCall.move live) schedule).shared.ownedObjectLockedTransactions o = some T := by
  induction schedule generalizing s with
  | nil => exact hT
  | cons i schedule ih => exact ih (hs.step live i) (hs.db_step live i hT)

end Inv

/-! ### Over every interleaving of calls -/

section Runs

variable (live : ℕ → Option ObjectRef) (db : ObjectRef → Option ℕ) (calls : List (ℕ × List ObjectRef))
  (schedule : List ℕ)

/-- An owned object is locked in the database at most once: whatever the
calls do next, a lock written (or found) there stays as it is. -/
theorem ownedObjectLockedTransactions_written_once (rest : List ℕ) (o : ObjectRef) :
    ((Calls.init db calls).run (AcquireCall.move live) schedule).shared.ownedObjectLockedTransactions o = none ∨
      (((Calls.init db calls).run (AcquireCall.move live) schedule).run (AcquireCall.move live)
          rest).shared.ownedObjectLockedTransactions o =
        ((Calls.init db calls).run (AcquireCall.move live) schedule).shared.ownedObjectLockedTransactions o := by
  rcases hT : ((Calls.init db calls).run (AcquireCall.move live) schedule).shared.ownedObjectLockedTransactions o
    with _ | T
  · exact .inl rfl
  · exact .inr (((Inv.init db calls).run live schedule).db_run live rest hT)

/-- Two calls that have returned `Ok` and share an owned input are for the
same transaction. -/
theorem acquireTransactionLocks_ok_exclusive {c₁ c₂ : AcquireCall}
    (h₁ : c₁ ∈ ((Calls.init db calls).run (AcquireCall.move live) schedule).threads)
    (h₂ : c₂ ∈ ((Calls.init db calls).run (AcquireCall.move live) schedule).threads)
    (hok₁ : c₁.phase = .done (.ok ())) (hok₂ : c₂.phase = .done (.ok ())) {o : ObjectRef}
    (ho₁ : o ∈ c₁.ownedInputObjects) (ho₂ : o ∈ c₂.ownedInputObjects) : c₁.tx = c₂.tx := by
  have hs := (Inv.init db calls).run live schedule
  have hT₁ := hs.committed c₁ h₁ (by simp [AcquireCall.committed, hok₁, Except.toBool]) o ho₁
  have hT₂ := hs.committed c₂ h₂ (by simp [AcquireCall.committed, hok₂, Except.toBool]) o ho₂
  rw [hT₁, Option.some.injEq] at hT₂
  exact hT₂

/-- Transaction 10 locks `O1`, transaction 11 then finds it locked by 10, and
transaction 10 locks `O1` and `O2`: the two calls that returned `Ok` share `O1`,
and they are of one transaction. -/
theorem acquireTransactionLocks_ok_exclusive_sameTx :
    let s := (Calls.init (fun _ => none) [(10, [lockO1]), (11, [lockO1]), (10, [lockO1, lockO2])]).run
      (AcquireCall.move lockLive) [0, 0, 0, 0, 0, 0, 1, 1, 1, 1, 1, 1, 2, 2, 2, 2, 2, 2, 2, 2]
    (⟨10, [lockO1], .done (.ok ())⟩ : AcquireCall) ∈ s.threads ∧
      (⟨11, [lockO1], .done (.error (.objectLockConflict lockO1 10))⟩ : AcquireCall) ∈ s.threads ∧
      (⟨10, [lockO1, lockO2], .done (.ok ())⟩ : AcquireCall) ∈ s.threads ∧
      (⟨10, [lockO1], .done (.ok ())⟩ : AcquireCall).tx = (⟨10, [lockO1, lockO2], .done (.ok ())⟩ : AcquireCall).tx :=
  ⟨by decide, by decide, by decide, @acquireTransactionLocks_ok_exclusive lockLive (fun _ => none)
    [(10, [lockO1]), (11, [lockO1]), (10, [lockO1, lockO2])]
    [0, 0, 0, 0, 0, 0, 1, 1, 1, 1, 1, 1, 2, 2, 2, 2, 2, 2, 2, 2]
    ⟨10, [lockO1], .done (.ok ())⟩ ⟨10, [lockO1, lockO2], .done (.ok ())⟩ (by decide) (by decide) rfl rfl lockO1
    (by simp) (by simp)⟩

/-- Neither stop of `clear_cached_locks` is ever reached. -/
theorem clearCachedLocks_never_panics (p : LockPanic) :
    Phase.panicked p ∉ ((Calls.init db calls).run (AcquireCall.move live) schedule).threads.map AcquireCall.phase := by
  intro hp
  obtain ⟨c, hc, hphase⟩ := List.mem_map.mp hp
  exact ((Inv.init db calls).run live schedule).not_panicked c hc ⟨p, hphase⟩

end Runs

/-! ### What a conflicting call leaves behind

A conflicting `try_set_transaction_lock` counts its caller in the entry, and
the caller clears only the entries it acquired, so the count never drops back
to zero: the entry outlives every call and turns away later callers whose
inputs are live and unlocked in the database. -/

/-- Transaction 10 locks `lockO2`; 11 takes `lockO1` and then conflicts with 10
on `lockO2`; meanwhile 12 conflicts with 11 on `lockO1`.  Transaction 13 comes
after all three have returned. -/
def lockCalls : Calls :=
  Calls.init (fun _ => none) [(10, [lockO2]), (11, [lockO1, lockO2]), (12, [lockO1]), (13, [lockO1])]

def lockCallsReturned : Calls :=
  lockCalls.run (AcquireCall.move lockLive) [0, 0, 0, 0, 0, 0, 1, 1, 2, 2, 2, 1, 1, 1]

theorem acquireTransactionLocks_conflict_leaks_lock :
    lockCallsReturned.threads.map AcquireCall.phase =
        [.done (.ok ()), .done (.error (.objectLockConflict lockO2 10)),
          .done (.error (.objectLockConflict lockO1 11)), .start] ∧
      lockCallsReturned.shared.lockedTransactions lockO1 = some (1, 11) ∧
      lockCallsReturned.shared.ownedObjectLockedTransactions lockO1 = none ∧
      lockLive lockO1.id = some lockO1 ∧
      (lockCallsReturned.run (AcquireCall.move lockLive) [3, 3, 3, 3]).threads.map AcquireCall.phase =
        [.done (.ok ()), .done (.error (.objectLockConflict lockO2 10)),
          .done (.error (.objectLockConflict lockO1 11)), .done (.error (.objectLockConflict lockO1 11))] := by
  decide

end Iota.Core
