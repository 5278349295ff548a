import Mathlib

/-! Commit indices and ranges of them (`consensus/core/src/commit.rs`). -/

namespace Iota.Consensus

/-- Commits are indexed from 1; index 0 stands for genesis. -/
def GENESIS_COMMIT_INDEX : ℕ := 0

/-- A commit's index and digest. -/
structure CommitRef where
  index : ℕ
  digest : ℕ
  deriving DecidableEq, Repr

/-- An inclusive range of commit indices.  The source stores `start..end + 1`
and reads both ends back inclusive. -/
structure CommitRange where
  start : ℕ
  «end» : ℕ
  deriving DecidableEq, Repr

namespace CommitRange

/-- `impl Ord for CommitRange` compares the starts, then the ends. -/
def key (r : CommitRange) : Lex (ℕ × ℕ) := toLex (r.start, r.end)

theorem key_injective : Function.Injective key := by
  rintro ⟨a, b⟩ ⟨c, d⟩ h
  simp only [key, toLex_inj, Prod.mk.injEq] at h
  rw [h.1, h.2]

instance : LinearOrder CommitRange := LinearOrder.lift' key key_injective

def Holds (r : CommitRange) (i : ℕ) : Prop := r.start ≤ i ∧ i ≤ r.end

instance (r : CommitRange) (i : ℕ) : Decidable (r.Holds i) := inferInstanceAs (Decidable (_ ∧ _))

/-- `size`: the number of indices the range holds. -/
def size (r : CommitRange) : ℕ := r.end + 1 - r.start

/-- `is_next_range`: `other` starts right after `self` ends. -/
def isNextRange (r other : CommitRange) : Bool := r.end + 1 = other.start

def isEqualSize (r other : CommitRange) : Bool := r.size = other.size

end CommitRange

end Iota.Consensus
