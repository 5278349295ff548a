import Mathlib
import Iota.Storage.TypedStore
import Iota.Core.BaseTypes

/-! Deferred transactions are stored in the epoch store under a `DeferralKey`
(`crates/iota-core/src/authority/transaction_deferral.rs`), and loaded by a scan of
the keys from one key on and below another (`load_deferred_transactions` of
`authority_per_epoch_store.rs`).  The key's derived order agrees with its bincode
encoding, so a scan loads the keys of an interval of that order; the randomness scan
stops below `Randomness { deferred_from_round: u64::MAX }`, which it leaves out. -/

namespace Iota.Core

open Iota.Lib Iota.Storage

/-- `u64::checked_add`. -/
def checkedAdd (a b : UInt64) : Option UInt64 := if a.toNat + b.toNat < 2 ^ 64 then some (a + b) else none

theorem toNat_lt_U64_MAX_iff (d : UInt64) : d.toNat < U64_MAX ↔ d.toNat ≠ U64_MAX := by
  have hd := UInt64.toNat_lt d
  unfold U64_MAX
  omega

theorem checkedAdd_one (round : UInt64) :
    checkedAdd round 1 = if round.toNat = U64_MAX then none else some (round + 1) := by
  have hd := UInt64.toNat_lt round
  unfold checkedAdd U64_MAX
  simp only [UInt64.toNat_one]
  split_ifs <;> first | rfl | omega

theorem toNat_add_one {round : UInt64} (h : round.toNat ≠ U64_MAX) : (round + 1).toNat = round.toNat + 1 := by
  have := (toNat_lt_U64_MAX_iff round).mpr h
  unfold U64_MAX at this
  rw [UInt64.toNat_add, UInt64.toNat_one, Nat.mod_eq_of_lt (by omega)]

inductive DeferralKey
  | randomness (deferredFromRound : UInt64)
  | consensusRound (futureRound deferredFromRound : UInt64)
  deriving DecidableEq, Repr

namespace DeferralKey

/-- The derived `Ord`: the variants in the order they are declared, then the fields
in order. -/
def key : DeferralKey → ℕ ×ₗ ℕ ×ₗ ℕ
  | randomness d => toLex (0, toLex (d.toNat, 0))
  | consensusRound f d => toLex (1, toLex (f.toNat, d.toNat))

theorem key_injective : Function.Injective key := by
  intro a b h
  cases a <;> cases b <;> simp [key, UInt64.toNat_inj] at h ⊢ <;> simp [h]

instance : LinearOrder DeferralKey := LinearOrder.lift' key key_injective

theorem lt_iff_key_lt {a b : DeferralKey} : a < b ↔ a.key < b.key := Iff.rfl

/-- bincode: the variant's index as a big-endian `u32`, then its fields. -/
instance : BeFixIntSer DeferralKey := ⟨fun
  | randomness d => beBytes 4 0 ++ beBytes 8 d.toNat
  | consensusRound f d => beBytes 4 1 ++ (beBytes 8 f.toNat ++ beBytes 8 d.toNat)⟩

def newForRandomness (deferredFromRound : UInt64) : DeferralKey := randomness deferredFromRound

def newForConsensusRound (futureRound deferredFromRound : UInt64) : DeferralKey :=
  consensusRound futureRound deferredFromRound

def fullRangeForRandomness : DeferralKey × DeferralKey := (randomness 0, randomness (UInt64.ofNat U64_MAX))

/-- `range_for_up_to_consensus_round`; `none` where `checked_add(1).unwrap()` panics. -/
def rangeForUpToConsensusRound (round : UInt64) : Option (DeferralKey × DeferralKey) :=
  (checkedAdd round 1).map fun next => (consensusRound 0 0, consensusRound next 0)

theorem ser_lt_iff (a b : DeferralKey) : beFixIntSer a < beFixIntSer b ↔ a < b := by
  have htag : beBytes 4 0 < beBytes 4 1 := by decide
  rw [lt_iff_key_lt]
  cases a <;> cases b <;>
    simp [beFixIntSer, BeFixIntSer.ser, key, append_lt_append_iff, Prod.Lex.toLex_lt_toLex, htag, htag.ne',
      not_lt.mpr htag.le, beBytes_toNat_lt_iff, beBytes_toNat_inj, UInt64.lt_iff_toNat_lt, UInt64.toNat_inj]

theorem serOrdered : SerOrdered DeferralKey := SerOrdered.of_lt_iff ser_lt_iff

theorem mem_consensusRound_range (next : UInt64) (k : DeferralKey) :
    (consensusRound 0 0 ≤ k ∧ k < consensusRound next 0) ↔ ∃ f d, k = consensusRound f d ∧ f < next := by
  cases k with
  | randomness d => simp [← not_lt, lt_iff_key_lt, key, Prod.Lex.toLex_lt_toLex]
  | consensusRound f d => simp [← not_lt, lt_iff_key_lt, key, Prod.Lex.toLex_lt_toLex, UInt64.lt_iff_toNat_lt]

theorem mem_randomness_range (k : DeferralKey) :
    (randomness 0 ≤ k ∧ k < randomness (UInt64.ofNat U64_MAX)) ↔ ∃ d, k = randomness d ∧ d.toNat ≠ U64_MAX := by
  have hmax : (UInt64.ofNat U64_MAX).toNat = U64_MAX := rfl
  cases k with
  | randomness d =>
    simp [← not_lt, lt_iff_key_lt, key, Prod.Lex.toLex_lt_toLex, hmax]
    exact toNat_lt_U64_MAX_iff d
  | consensusRound f d => simp [← not_lt, lt_iff_key_lt, key, Prod.Lex.toLex_lt_toLex]

end DeferralKey

section Load

variable {V : Type*}

/-- `load_deferred_transactions`: the batches under the keys from `min` on and below
`max`, and those keys, which the commit output deletes. -/
def loadDeferredTransactions (table : DBMap DeferralKey V) (min max : DeferralKey) :
    List (DeferralKey × V) × List DeferralKey :=
  let txns := table.safeIterWithBounds (some min) (some max)
  (txns, txns.map Prod.fst)

def loadDeferredTransactionsForRandomness (table : DBMap DeferralKey V) : List (DeferralKey × V) × List DeferralKey :=
  loadDeferredTransactions table DeferralKey.fullRangeForRandomness.1 DeferralKey.fullRangeForRandomness.2

def loadDeferredTransactionsForUpToConsensusRound (table : DBMap DeferralKey V) (consensusRound : UInt64) :
    Option (List (DeferralKey × V) × List DeferralKey) :=
  (DeferralKey.rangeForUpToConsensusRound consensusRound).map fun range => loadDeferredTransactions table range.1 range.2

theorem mem_loadDeferredTransactions (table : DBMap DeferralKey V) (min max : DeferralKey) (e : DeferralKey × V) :
    e ∈ (loadDeferredTransactions table min max).1 ↔ e ∈ table.entries ∧ min ≤ e.1 ∧ e.1 < max := by
  simp [loadDeferredTransactions, mem_safeIterWithBounds DeferralKey.serOrdered]

/-- The randomness scan loads the batches of every `Randomness` key but the one of
`deferred_from_round = u64::MAX`, which the exclusive upper bound leaves out. -/
theorem mem_loadDeferredTransactionsForRandomness (table : DBMap DeferralKey V) (e : DeferralKey × V) :
    e ∈ (loadDeferredTransactionsForRandomness table).1 ↔
      e ∈ table.entries ∧ ∃ d, e.1 = .randomness d ∧ d.toNat ≠ U64_MAX := by
  rw [loadDeferredTransactionsForRandomness, mem_loadDeferredTransactions, DeferralKey.fullRangeForRandomness,
    ← DeferralKey.mem_randomness_range]

/-- Up to a round below `u64::MAX`, the scan loads, and deletes, exactly the batches
deferred to a round up to it; at `u64::MAX` the range panics. -/
theorem loadDeferredTransactionsForUpToConsensusRound_spec (table : DBMap DeferralKey V) (consensusRound : UInt64) :
    (consensusRound.toNat = U64_MAX → loadDeferredTransactionsForUpToConsensusRound table consensusRound = none) ∧
      (consensusRound.toNat ≠ U64_MAX → ∃ loaded, loadDeferredTransactionsForUpToConsensusRound table consensusRound = some loaded ∧
        (∀ e, e ∈ loaded.1 ↔ e ∈ table.entries ∧ ∃ f d, e.1 = .consensusRound f d ∧ f ≤ consensusRound) ∧
        loaded.2 = loaded.1.map Prod.fst) := by
  refine ⟨fun hmax => ?_, fun hmax => ?_⟩
  · simp [loadDeferredTransactionsForUpToConsensusRound, DeferralKey.rangeForUpToConsensusRound, checkedAdd_one, hmax]
  · refine ⟨loadDeferredTransactions table (.consensusRound 0 0) (.consensusRound (consensusRound + 1) 0),
      by simp [loadDeferredTransactionsForUpToConsensusRound, DeferralKey.rangeForUpToConsensusRound, checkedAdd_one, hmax],
      fun e => ?_, rfl⟩
    rw [mem_loadDeferredTransactions, DeferralKey.mem_consensusRound_range]
    -- below `round + 1` is up to `round`, as `round + 1` does not wrap
    simp only [UInt64.lt_iff_toNat_lt, UInt64.le_iff_toNat_le, toNat_add_one hmax, Nat.lt_succ_iff]

end Load

end Iota.Core
