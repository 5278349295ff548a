import Mathlib

/-! The base types of `crates/iota-types/src/base_types.rs` that the lock and
version code reads.  Object ids, versions and digests are numbers; a
`SequenceNumber` is its `u64` value, with the three reserved values above
`MAX` that mark the shared inputs of a cancelled transaction. -/

namespace Iota.Core

structure ObjectRef where
  id : ℕ
  version : ℕ
  digest : ℕ
  deriving DecidableEq, Repr

/-- An object id with a version. -/
structure ObjectKey where
  id : ℕ
  version : ℕ
  deriving DecidableEq, Repr

def ObjectRef.toKey (r : ObjectRef) : ObjectKey := ⟨r.id, r.version⟩

/-- `ObjectID::ZERO`. -/
def ObjectID.ZERO : ℕ := 0

inductive Owner
  | addressOwner (address : ℕ)
  | objectOwner (address : ℕ)
  | shared (initialSharedVersion : ℕ)
  | immutable
  deriving DecidableEq, Repr

def U64_MAX : ℕ := 2 ^ 64 - 1

namespace SequenceNumber

def MAX : ℕ := 0x7fff_ffff_ffff_ffff
def CANCELLED_READ : ℕ := MAX + 1
def CONGESTED : ℕ := MAX + 2
def RANDOMNESS_UNAVAILABLE : ℕ := MAX + 3

def isCancelled (v : ℕ) : Bool := v == CANCELLED_READ || v == CONGESTED || v == RANDOMNESS_UNAVAILABLE

def isValid (v : ℕ) : Bool := v < MAX

/-- `lamport_increment`: one more than the largest input (or than zero);
`none` where its `assert_ne!(max_input, u64::MAX)` fails. -/
def lamportIncrement (inputs : List ℕ) : Option ℕ :=
  if inputs.foldl max 0 = U64_MAX then none else some (inputs.foldl max 0 + 1)

/-- `increment`, with its `assert_ne!(self, u64::MAX)`. -/
def increment (v : ℕ) : Option ℕ := if v = U64_MAX then none else some (v + 1)

end SequenceNumber

def IOTA_CLOCK_OBJECT_ID : ℕ := 6
def IOTA_AUTHENTICATOR_STATE_OBJECT_ID : ℕ := 7
def IOTA_RANDOMNESS_STATE_OBJECT_ID : ℕ := 8
def OBJECT_START_VERSION : ℕ := 1
def IOTA_CLOCK_OBJECT_SHARED_VERSION : ℕ := OBJECT_START_VERSION

/-! A left fold of `max` is bounded by exactly what bounds its start and its
members, so it depends only on which values the list holds. -/

section FoldMax

variable {α : Type*} [LinearOrder α]

theorem foldl_max_le_iff {b : α} : ∀ {l : List α} {a : α}, l.foldl max a ≤ b ↔ a ≤ b ∧ ∀ x ∈ l, x ≤ b
  | [], _ => by simp
  | x :: l, a => by
    rw [List.foldl_cons, foldl_max_le_iff, max_le_iff, List.forall_mem_cons, and_assoc]

theorem le_foldl_max_of_mem {l : List α} {a x : α} (hx : x ∈ l) : x ≤ l.foldl max a :=
  (Iff.mp foldl_max_le_iff le_rfl).2 x hx

theorem le_foldl_max (l : List α) (a : α) : a ≤ l.foldl max a :=
  (Iff.mp foldl_max_le_iff le_rfl).1

theorem foldl_max_congr {l₁ l₂ : List α} (a : α) (h : ∀ x, x ∈ l₁ ↔ x ∈ l₂) :
    l₁.foldl max a = l₂.foldl max a := by
  apply le_antisymm
  · rw [foldl_max_le_iff]
    exact ⟨le_foldl_max l₂ a, fun x hx => le_foldl_max_of_mem ((h x).mp hx)⟩
  · rw [foldl_max_le_iff]
    exact ⟨le_foldl_max l₁ a, fun x hx => le_foldl_max_of_mem ((h x).mpr hx)⟩

end FoldMax

namespace SequenceNumber

theorem lt_of_lamportIncrement {inputs : List ℕ} {v x : ℕ} (h : lamportIncrement inputs = some v)
    (hx : x ∈ inputs) : x < v := by
  unfold lamportIncrement at h
  split_ifs at h
  rw [← Option.some.inj h]
  exact Nat.lt_succ_of_le (le_foldl_max_of_mem hx)

theorem lamportIncrement_congr {l₁ l₂ : List ℕ} (h : ∀ x, x ∈ l₁ ↔ x ∈ l₂) :
    lamportIncrement l₁ = lamportIncrement l₂ := by
  simp only [lamportIncrement, foldl_max_congr 0 h]

theorem isCancelled_iff {v : ℕ} : isCancelled v ↔ v = CANCELLED_READ ∨ v = CONGESTED ∨ v = RANDOMNESS_UNAVAILABLE := by
  simp [isCancelled, or_assoc]

theorem not_isCancelled_of_le {v : ℕ} (h : v ≤ MAX) : ¬isCancelled v := by
  rw [isCancelled_iff]
  simp only [CANCELLED_READ, CONGESTED, RANDOMNESS_UNAVAILABLE]
  omega

end SequenceNumber

end Iota.Core
