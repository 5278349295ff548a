import Iota.Consensus.Committee
import Iota.Consensus.Error
import Iota.Lib.Except

/-! `SignedBlockVerifier` (`consensus/core/src/block_verifier.rs`): the checks a
block from a peer must pass before it becomes a `VerifiedBlock`, and the
timestamp check against its ancestors made when it is accepted. -/

namespace Iota.Consensus

open Iota.Lib

/-- A block as received, with the fields `verify` reads.  A transaction is its
bytes. -/
structure SignedBlock where
  epoch : ℕ
  round : ℕ
  author : ℕ
  timestampMs : ℕ
  ancestors : List BlockRef
  transactions : List (List UInt8)
  deriving DecidableEq, Repr

/-- `VerifiedBlock::new_verified`: the digest is the hash of the serialized
block, and the round invariant is what `verify` established. -/
def VerifiedBlock.newVerified (b : SignedBlock) (digest : ℕ)
    (h : ∀ a ∈ b.ancestors, a.round < b.round) : VerifiedBlock :=
  ⟨b.round, b.author, digest, b.timestampMs, b.ancestors, h⟩

/-- The verifier's context: the committee and its epoch, the genesis
references, the protocol's transaction limits, and the signature and
transaction checks, which are cryptographic and left abstract. -/
structure SignedBlockVerifier where
  committee : Committee
  epoch : ℕ
  genesis : Finset BlockRef
  maxTransactionSizeBytes : ℕ
  maxNumTransactionsInBlock : ℕ
  maxTransactionsInBlockBytes : ℕ
  verifySignature : SignedBlock → Except ConsensusError Unit
  verifyBatch : List (List UInt8) → Bool

namespace SignedBlockVerifier

variable (v : SignedBlockVerifier)

/-- A limit of zero disables its check. -/
def checkTransactions (batch : List (List UInt8)) : Except ConsensusError Unit :=
  match batch.find? (fun t => v.maxTransactionSizeBytes < t.length ∧ 0 < v.maxTransactionSizeBytes) with
  | some t => .error (.transactionTooLarge t.length v.maxTransactionSizeBytes)
  | none =>
    if v.maxNumTransactionsInBlock < batch.length ∧ 0 < v.maxNumTransactionsInBlock then
      .error (.tooManyTransactions batch.length v.maxNumTransactionsInBlock)
    -- the source reports the number of transactions as the size
    else if v.maxTransactionsInBlockBytes < (batch.map List.length).sum ∧
        0 < v.maxTransactionsInBlockBytes then
      .error (.tooManyTransactionBytes batch.length v.maxTransactionsInBlockBytes)
    else .ok ()

/-- The loop of `verify` over the ancestors, from position `i`, with the
authors seen so far and the stake of the parents (ancestors one round below)
counted so far; it returns the parents' total stake. -/
def verifyAncestors (b : SignedBlock) : ℕ → Finset ℕ → ℕ → List BlockRef → Except ConsensusError ℕ
  | _, _, parentStakes, [] => .ok parentStakes
  | i, seen, parentStakes, a :: rest =>
    if !v.committee.isValidIndex a.author then
      .error (.invalidAuthorityIndex a.author (v.committee.size - 1))
    else if (i = 0 ∧ a.author ≠ b.author) ∨ (0 < i ∧ a.author = b.author) then
      .error (.invalidAncestorPosition b.author a.author i)
    else if b.round ≤ a.round then
      .error (.invalidAncestorRound a.round b.round)
    else if a.round = GENESIS_ROUND ∧ a ∉ v.genesis then
      .error (.invalidGenesisAncestor a)
    else if a.author ∈ seen then
      .error (.duplicatedAncestorsAuthority a.author)
    else
      verifyAncestors b (i + 1) (insert a.author seen)
        (if a.round = b.round - 1 then parentStakes + v.committee.stake a.author else parentStakes) rest

/-- Everything `verify` checks after the signature. -/
def verifyStructure (b : SignedBlock) : Except ConsensusError Unit :=
  if v.committee.size < b.ancestors.length then
    .error (.tooManyAncestors b.ancestors.length v.committee.size)
  else if b.ancestors.isEmpty then
    .error (.insufficientParentStakes 0 v.committee.quorumThreshold)
  else do
    let parentStakes ← v.verifyAncestors b 0 ∅ 0 b.ancestors
    if !v.committee.reachedQuorum parentStakes then
      .error (.insufficientParentStakes parentStakes v.committee.quorumThreshold)
    else do
      v.checkTransactions b.transactions
      if !v.verifyBatch b.transactions then .error .invalidTransaction else .ok ()

def verify (b : SignedBlock) : Except ConsensusError Unit :=
  if b.epoch ≠ v.epoch then
    .error (.wrongEpoch v.epoch b.epoch)
  else if b.round = 0 then
    .error .unexpectedGenesisBlock
  else if !v.committee.isValidIndex b.author then
    .error (.invalidAuthorityIndex b.author (v.committee.size - 1))
  else do
    v.verifySignature b
    v.verifyStructure b

/-! ### `check_ancestors`

With GC, ancestors at or below the GC round may be missing and are skipped,
and the check stops at the first ancestor whose timestamp is above the
block's.  Without GC every ancestor must be present, and the maximum is
compared once at the end. -/

def checkTimestampsAboveGcRound (block : VerifiedBlock) (gcRound : ℕ) :
    ℕ → List VerifiedBlock → Except ConsensusError Unit
  | _, [] => .ok ()
  | maxTimestampMs, a :: rest =>
    if a.round ≤ gcRound then checkTimestampsAboveGcRound block gcRound maxTimestampMs rest
    else if block.timestampMs < max maxTimestampMs a.timestampMs then
      .error (.invalidBlockTimestamp (max maxTimestampMs a.timestampMs) block.timestampMs)
    else checkTimestampsAboveGcRound block gcRound (max maxTimestampMs a.timestampMs) rest

def maxAncestorTimestamp (block : VerifiedBlock) :
    ℕ → List (BlockRef × Option VerifiedBlock) → Except Panic ℕ
  | maxTimestampMs, [] => .ok maxTimestampMs
  | _, (_, none) :: _ => .error (.emptyAncestorSlot block.reference)
  | maxTimestampMs, (r, some a) :: rest =>
    if r ≠ a.reference then .error (.ancestorsMismatch block.reference)
    else maxAncestorTimestamp block (max maxTimestampMs a.timestampMs) rest

/-- The outer result is a panic, the inner one the verdict. -/
def checkAncestors (block : VerifiedBlock) (ancestors : List (Option VerifiedBlock))
    (gcEnabled : Bool) (gcRound : ℕ) : Except Panic (Except ConsensusError Unit) :=
  if gcEnabled then
    .ok (checkTimestampsAboveGcRound block gcRound 0 (ancestors.filterMap id))
  else if block.ancestors.length ≠ ancestors.length then
    .error (.ancestorsMismatch block.reference)
  else do
    let maxTimestampMs ← maxAncestorTimestamp block 0 (block.ancestors.zip ancestors)
    if block.timestampMs < maxTimestampMs then
      .ok (.error (.invalidBlockTimestamp maxTimestampMs block.timestampMs))
    else .ok (.ok ())

variable {v}

theorem verifyAncestors_cons_eq_ok {b : SignedBlock} {i : ℕ} {seen : Finset ℕ} {ps r : ℕ}
    {a : BlockRef} {rest : List BlockRef} :
    v.verifyAncestors b i seen ps (a :: rest) = .ok r ↔
      v.committee.isValidIndex a.author ∧ (i = 0 → a.author = b.author) ∧
      (0 < i → a.author ≠ b.author) ∧ a.round < b.round ∧
      (a.round = GENESIS_ROUND → a ∈ v.genesis) ∧ a.author ∉ seen ∧
      v.verifyAncestors b (i + 1) (insert a.author seen)
        (if a.round = b.round - 1 then ps + v.committee.stake a.author else ps) rest = .ok r := by
  simp only [verifyAncestors]
  split_ifs <;> simp_all <;> omega

theorem round_lt_of_verifyAncestors {b : SignedBlock} :
    ∀ {i : ℕ} {seen : Finset ℕ} {ps r : ℕ} {l : List BlockRef},
      v.verifyAncestors b i seen ps l = .ok r → ∀ a ∈ l, a.round < b.round
  | _, _, _, _, [], _ => by simp
  | _, _, _, _, x :: rest, h => by
    obtain ⟨-, -, -, hround, -, -, hrest⟩ := Iff.mp verifyAncestors_cons_eq_ok h
    intro a ha
    rcases List.mem_cons.mp ha with rfl | ha
    · exact hround
    · exact round_lt_of_verifyAncestors hrest a ha

theorem verifyStructure_eq_ok {b : SignedBlock} :
    v.verifyStructure b = .ok () ↔
      b.ancestors.length ≤ v.committee.size ∧ b.ancestors ≠ [] ∧
      (∃ ps, v.verifyAncestors b 0 ∅ 0 b.ancestors = .ok ps ∧ v.committee.reachedQuorum ps) ∧
      v.checkTransactions b.transactions = .ok () ∧ v.verifyBatch b.transactions := by
  simp only [verifyStructure]
  split_ifs <;> simp_all [ite_eq_iff, Unique.exists_iff, ← and_assoc, exists_and_right]

theorem verify_eq_ok {b : SignedBlock} :
    v.verify b = .ok () ↔
      b.epoch = v.epoch ∧ b.round ≠ 0 ∧ v.committee.isValidIndex b.author ∧
      v.verifySignature b = .ok () ∧ v.verifyStructure b = .ok () := by
  simp only [verify]
  split_ifs <;> simp_all [Unique.exists_iff]

theorem ancestors_round_lt_of_verify {b : SignedBlock} (h : v.verify b = .ok ()) :
    ∀ a ∈ b.ancestors, a.round < b.round := by
  obtain ⟨-, -, -, -, hstruct⟩ := Iff.mp verify_eq_ok h
  obtain ⟨-, -, ⟨ps, hps, -⟩, -⟩ := Iff.mp verifyStructure_eq_ok hstruct
  exact round_lt_of_verifyAncestors hps

theorem maxAncestorTimestamp_error {block : VerifiedBlock} {p : Panic} :
    ∀ {maxTimestampMs : ℕ} {l : List (BlockRef × Option VerifiedBlock)},
      maxAncestorTimestamp block maxTimestampMs l = .error p →
        p = .emptyAncestorSlot block.reference ∨ p = .ancestorsMismatch block.reference
  | _, [], h => by cases h
  | _, (_, none) :: _, h => by
    cases h
    exact .inl rfl
  | _, (r, some a) :: rest, h => by
    unfold maxAncestorTimestamp at h
    split_ifs at h
    · cases h
      exact .inr rfl
    · exact maxAncestorTimestamp_error h

theorem checkAncestors_error {block : VerifiedBlock} {ancestors : List (Option VerifiedBlock)} {gcEnabled : Bool}
    {gcRound : ℕ} {p : Panic} (h : checkAncestors block ancestors gcEnabled gcRound = .error p) :
    p = .emptyAncestorSlot block.reference ∨ p = .ancestorsMismatch block.reference := by
  unfold checkAncestors at h
  split_ifs at h
  · cases h
    exact .inr rfl
  · rw [except_bind_eq_error] at h
    rcases h with h | ⟨_, -, h⟩
    · exact maxAncestorTimestamp_error h
    · split_ifs at h

end SignedBlockVerifier

/-- `NoopBlockVerifier::check_ancestors`, the test verifier: every block passes. -/
def NoopBlockVerifier.checkAncestors (_block : VerifiedBlock) (_ancestors : List (Option VerifiedBlock))
    (_gcEnabled : Bool) (_gcRound : ℕ) : Except Panic (Except ConsensusError Unit) :=
  .ok (.ok ())

end Iota.Consensus
