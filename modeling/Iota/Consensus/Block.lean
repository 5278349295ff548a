import Mathlib

/-! Block references, slots and verified blocks (`consensus/core/src/block.rs`).
A `BlockRef` is ordered as the derived `Ord` orders it: by round, then author,
then digest; `BTreeMap`s and `BTreeSet`s of references iterate in that order. -/

namespace Iota.Consensus

def GENESIS_ROUND : ℕ := 0

structure BlockRef where
  round : ℕ
  author : ℕ
  digest : ℕ
  deriving DecidableEq, Repr

namespace BlockRef

def key (r : BlockRef) : ℕ ×ₗ ℕ ×ₗ ℕ := toLex (r.round, toLex (r.author, r.digest))

theorem key_injective : Function.Injective key := by
  intro a b h
  cases a; cases b
  simp [key] at h
  simp [h]

instance : LinearOrder BlockRef := LinearOrder.lift' key key_injective

theorem lt_iff_key_lt {a b : BlockRef} : a < b ↔ a.key < b.key := Iff.rfl

theorem lt_of_round_lt {a b : BlockRef} (h : a.round < b.round) : a < b := by
  rw [lt_iff_key_lt]
  simp [key, Prod.Lex.toLex_lt_toLex, h]

theorem round_le_of_le {a b : BlockRef} (h : a ≤ b) : a.round ≤ b.round := by
  by_contra hlt
  exact absurd h (not_le.mpr (lt_of_round_lt (by omega)))

end BlockRef

structure Slot where
  round : ℕ
  authority : ℕ
  deriving DecidableEq, Repr

/-- `impl From<BlockRef> for Slot`. -/
def Slot.ofRef (r : BlockRef) : Slot := ⟨r.round, r.author⟩

@[simp] theorem Slot.ofRef_round (r : BlockRef) : (Slot.ofRef r).round = r.round := rfl
@[simp] theorem Slot.ofRef_authority (r : BlockRef) : (Slot.ofRef r).authority = r.author := rfl

/-- A block whose signature and structure have been verified, or a genesis
block.  Every ancestor of such a block has a lower round: `verify` rejects
anything else with `InvalidAncestorRound`, and genesis blocks have no ancestors.
The epoch, transactions, commit votes and misbehaviour reports are not read by
any modelled function. -/
structure VerifiedBlock where
  round : ℕ
  author : ℕ
  digest : ℕ
  timestampMs : ℕ
  ancestors : List BlockRef
  ancestors_round_lt : ∀ a ∈ ancestors, a.round < round
  deriving DecidableEq

namespace VerifiedBlock

def reference (b : VerifiedBlock) : BlockRef := ⟨b.round, b.author, b.digest⟩

@[simp] theorem reference_round (b : VerifiedBlock) : b.reference.round = b.round := rfl
@[simp] theorem reference_author (b : VerifiedBlock) : b.reference.author = b.author := rfl

def slot (b : VerifiedBlock) : Slot := Slot.ofRef b.reference

theorem round_lt_of_mem_ancestors {b : VerifiedBlock} {a : BlockRef} (h : a ∈ b.ancestors) :
    a.round < b.round := b.ancestors_round_lt a h

theorem genesis_ancestors_round_lt : ∀ a ∈ ([] : List BlockRef), a.round < GENESIS_ROUND :=
  fun _ h => absurd h List.not_mem_nil

theorem mem_ancestors_of_head? {b : VerifiedBlock} {a : BlockRef} (h : b.ancestors.head? = some a) :
    a ∈ b.ancestors := List.mem_of_mem_head? (a := a) h

theorem round_lt_of_head? {b : VerifiedBlock} {a : BlockRef} (h : b.ancestors.head? = some a) :
    a.round < b.round := b.round_lt_of_mem_ancestors (mem_ancestors_of_head? h)

end VerifiedBlock

end Iota.Consensus
