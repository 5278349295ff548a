import Mathlib

/-! `CheckpointBuilder::split_checkpoint_chunks` (`crates/iota-core/src/checkpoints/mod.rs`):
the transactions of a pending checkpoint, with their effects and signatures, are cut
into the chunks that become checkpoints.  A chunk is closed before an entry when it
already holds `max_transactions_per_checkpoint` entries or when the entry would take
its estimated size past `max_checkpoint_size_bytes`; an entry too large for any chunk
goes alone into one, and no input gives one empty heartbeat chunk.  The serialized
sizes of effects and signatures are given as functions. -/

namespace Iota.Checkpoints

section Split

variable {E S : Type} (maxTransactionsPerCheckpoint maxCheckpointSizeBytes : ℕ) (effectsSize : E → ℕ)
  (signaturesSize : S → ℕ)

/-- The size estimated for an entry: the transaction's size and the serialized sizes of
its effects and of its signatures. -/
def entrySize (entry : (E × ℕ) × S) : ℕ := entry.1.2 + effectsSize entry.1.1 + signaturesSize entry.2

/-- What a chunk keeps of an entry: its effects and its signatures. -/
def chunkEntry (entry : (E × ℕ) × S) : E × S := (entry.1.1, entry.2)

structure ChunkState (E S : Type) where
  chunks : List (List (E × S))
  chunk : List (E × S)
  chunkSize : ℕ

/-- One iteration of the loop of `split_checkpoint_chunks`. -/
def splitStep (state : ChunkState E S) (entry : (E × ℕ) × S) : ChunkState E S :=
  let size := entrySize effectsSize signaturesSize entry
  let state :=
    if state.chunk.length = maxTransactionsPerCheckpoint ∨ maxCheckpointSizeBytes < state.chunkSize + size then
      -- an empty chunk always takes the entry, however large
      if state.chunk.isEmpty then state else ⟨state.chunks ++ [state.chunk], [], 0⟩
    else state
  { state with chunk := state.chunk ++ [chunkEntry entry], chunkSize := state.chunkSize + size }

def splitCheckpointChunks (effectsAndTransactionSizes : List (E × ℕ)) (signatures : List S) :
    List (List (E × S)) :=
  let state := (effectsAndTransactionSizes.zip signatures).foldl
    (splitStep maxTransactionsPerCheckpoint maxCheckpointSizeBytes effectsSize signaturesSize) ⟨[], [], 0⟩
  if !state.chunk.isEmpty ∨ state.chunks.isEmpty then state.chunks ++ [state.chunk] else state.chunks

/-- The estimated size of a run of entries. -/
def partSize (part : List ((E × ℕ) × S)) : ℕ := (part.map (entrySize effectsSize signaturesSize)).sum

/-- A part is closed for good reason before the first entry of the next: it is full, or
that entry would take it past the size limit. -/
def Closed (part next : List ((E × ℕ) × S)) : Prop :=
  ∃ entry ∈ next.head?, part.length = maxTransactionsPerCheckpoint ∨
    maxCheckpointSizeBytes < partSize effectsSize signaturesSize part + entrySize effectsSize signaturesSize entry

/-- What the chunks of an input must be, as runs of the input's entries: they cover the
input in order, each within the count limit and, unless it is a single entry, within
the size limit, none empty but the one heartbeat chunk of an empty input, and each
closed only when the next entry does not fit. -/
structure Chunking (input : List ((E × ℕ) × S)) (parts : List (List ((E × ℕ) × S))) : Prop where
  flatten_eq : parts.flatten = input
  length_le : ∀ part ∈ parts, part.length ≤ maxTransactionsPerCheckpoint
  size_le : ∀ part ∈ parts, partSize effectsSize signaturesSize part ≤ maxCheckpointSizeBytes ∨ part.length = 1
  heartbeat : input = [] → parts = [[]]
  ne_nil : input ≠ [] → ∀ part ∈ parts, part ≠ []
  closed : parts.IsChain (Closed maxTransactionsPerCheckpoint maxCheckpointSizeBytes effectsSize signaturesSize)

@[simp] theorem partSize_append (part part' : List ((E × ℕ) × S)) :
    partSize effectsSize signaturesSize (part ++ part') =
      partSize effectsSize signaturesSize part + partSize effectsSize signaturesSize part' := by
  simp [partSize]

@[simp] theorem partSize_singleton (entry : (E × ℕ) × S) :
    partSize effectsSize signaturesSize [entry] = entrySize effectsSize signaturesSize entry := by
  simp [partSize]

theorem splitStep_cases (state : ChunkState E S) (entry : (E × ℕ) × S) :
    (((state.chunk.length = maxTransactionsPerCheckpoint ∨
        maxCheckpointSizeBytes < state.chunkSize + entrySize effectsSize signaturesSize entry) → state.chunk = []) ∧
      splitStep maxTransactionsPerCheckpoint maxCheckpointSizeBytes effectsSize signaturesSize state entry =
        ⟨state.chunks, state.chunk ++ [chunkEntry entry], state.chunkSize + entrySize effectsSize signaturesSize entry⟩) ∨
    ((state.chunk.length = maxTransactionsPerCheckpoint ∨
        maxCheckpointSizeBytes < state.chunkSize + entrySize effectsSize signaturesSize entry) ∧ state.chunk ≠ [] ∧
      splitStep maxTransactionsPerCheckpoint maxCheckpointSizeBytes effectsSize signaturesSize state entry =
        ⟨state.chunks ++ [state.chunk], [chunkEntry entry], entrySize effectsSize signaturesSize entry⟩) := by
  by_cases hfull : state.chunk.length = maxTransactionsPerCheckpoint ∨
      maxCheckpointSizeBytes < state.chunkSize + entrySize effectsSize signaturesSize entry
  · by_cases hempty : state.chunk = []
    · left
      refine ⟨fun _ => hempty, ?_⟩
      simp [splitStep, hempty]
    · right
      refine ⟨hfull, hempty, ?_⟩
      simp [splitStep, hfull, hempty]
  · left
    refine ⟨fun h => absurd h hfull, ?_⟩
    simp only [splitStep, if_neg hfull]

/-- The loop's invariant over the entries consumed so far: the closed chunks and the
open one are the images of runs of those entries, each closed run meets the
`Chunking` conditions, the open run keeps the limits, and only the start has an empty
open chunk. -/
structure ChunkInv (consumed : List ((E × ℕ) × S)) (state : ChunkState E S) (done : List (List ((E × ℕ) × S)))
    (current : List ((E × ℕ) × S)) : Prop where
  flatten_eq : done.flatten ++ current = consumed
  chunks_eq : state.chunks = done.map (·.map chunkEntry)
  chunk_eq : state.chunk = current.map chunkEntry
  chunkSize_eq : state.chunkSize = partSize effectsSize signaturesSize current
  done_ne_nil : ∀ part ∈ done, part ≠ []
  length_le : ∀ part ∈ done ++ [current], part.length ≤ maxTransactionsPerCheckpoint
  size_le : ∀ part ∈ done ++ [current],
    partSize effectsSize signaturesSize part ≤ maxCheckpointSizeBytes ∨ part.length = 1
  start : current = [] → done = []
  closed : (done ++ [current]).IsChain (Closed maxTransactionsPerCheckpoint maxCheckpointSizeBytes effectsSize signaturesSize)

theorem chunkInv_start :
    ChunkInv maxTransactionsPerCheckpoint maxCheckpointSizeBytes effectsSize signaturesSize [] ⟨[], [], 0⟩ [] [] where
  flatten_eq := rfl
  chunks_eq := rfl
  chunk_eq := rfl
  chunkSize_eq := rfl
  done_ne_nil := by simp
  length_le := by simp
  size_le := by simp [partSize]
  start := fun _ => rfl
  closed := by simp

theorem ChunkInv.step (hmax : 0 < maxTransactionsPerCheckpoint) {consumed : List ((E × ℕ) × S)}
    {state : ChunkState E S} {done : List (List ((E × ℕ) × S))} {current : List ((E × ℕ) × S)}
    (hinv : ChunkInv maxTransactionsPerCheckpoint maxCheckpointSizeBytes effectsSize signaturesSize consumed state done
      current) (entry : (E × ℕ) × S) :
    ∃ done' current', ChunkInv maxTransactionsPerCheckpoint maxCheckpointSizeBytes effectsSize signaturesSize
      (consumed ++ [entry]) (splitStep maxTransactionsPerCheckpoint maxCheckpointSizeBytes effectsSize signaturesSize
        state entry) done' current' := by
  have hlength : current.length = state.chunk.length := by simp [hinv.chunk_eq]
  have hcurrent_nil : current = [] ↔ state.chunk = [] := by simp [hinv.chunk_eq]
  have hlast := hinv.length_le current (by simp)
  rcases splitStep_cases maxTransactionsPerCheckpoint maxCheckpointSizeBytes effectsSize signaturesSize state entry with
    ⟨hfits, hstep⟩ | ⟨hfull, hne, hstep⟩
  · -- the entry joins the open run
    refine ⟨done, current ++ [entry], ?_⟩
    rw [hstep]
    have hgrow : current = [] ∨ (current.length < maxTransactionsPerCheckpoint ∧
        partSize effectsSize signaturesSize current + entrySize effectsSize signaturesSize entry ≤
          maxCheckpointSizeBytes) := by
      by_cases hnil : current = []
      · exact .inl hnil
      · right
        have hnot := mt hfits (mt hcurrent_nil.mpr hnil)
        rw [not_or, ← hlength, hinv.chunkSize_eq] at hnot
        exact ⟨lt_of_le_of_ne hlast hnot.1, Nat.le_of_not_lt hnot.2⟩
    constructor
    · rw [← List.append_assoc, hinv.flatten_eq]
    · exact hinv.chunks_eq
    · simp [hinv.chunk_eq]
    · simp [hinv.chunkSize_eq]
    · exact hinv.done_ne_nil
    · intro part hpart
      rcases List.mem_append.mp hpart with hdone | hnew
      · exact hinv.length_le part (List.mem_append_left _ hdone)
      · rw [List.mem_singleton.mp hnew, List.length_append, List.length_singleton]
        rcases hgrow with hnil | ⟨hlt, -⟩
        · simp [hnil]
          omega
        · omega
    · intro part hpart
      rcases List.mem_append.mp hpart with hdone | hnew
      · exact hinv.size_le part (List.mem_append_left _ hdone)
      · rw [List.mem_singleton.mp hnew]
        rcases hgrow with hnil | ⟨-, hle⟩
        · simp [hnil]
        · left
          simpa using hle
    · intro h
      simp at h
    · -- the open run keeps its first entry, so the last closed run is still closed before it
      rcases List.eq_nil_or_concat current with hnil | ⟨init, last, hsnoc⟩
      · rw [hinv.start hnil, hnil]
        simp
      · have hclosed := hinv.closed
        rw [List.isChain_append] at hclosed ⊢
        refine ⟨hclosed.1, by simp, ?_⟩
        intro part hpart next hnext
        have hhead : (current ++ [entry]).head? = current.head? := by
          rw [hsnoc]
          simp
        rw [List.head?_singleton, Option.mem_some_iff] at hnext
        subst hnext
        obtain ⟨first, hfirst, hwhy⟩ := hclosed.2.2 part hpart current (by simp)
        exact ⟨first, hhead ▸ hfirst, hwhy⟩
  · -- the open run is closed, and the entry opens the next one
    have hnil : current ≠ [] := mt hcurrent_nil.mp hne
    refine ⟨done ++ [current], [entry], ?_⟩
    rw [hstep]
    constructor
    · rw [List.flatten_append, List.flatten_singleton, hinv.flatten_eq]
    · simp [hinv.chunks_eq, hinv.chunk_eq]
    · rfl
    · simp
    · intro part hpart
      rcases List.mem_append.mp hpart with hdone | hnew
      · exact hinv.done_ne_nil part hdone
      · rw [List.mem_singleton.mp hnew]
        exact hnil
    · intro part hpart
      rcases List.mem_append.mp hpart with hdone | hnew
      · exact hinv.length_le part hdone
      · rw [List.mem_singleton.mp hnew, List.length_singleton]
        exact hmax
    · intro part hpart
      rcases List.mem_append.mp hpart with hdone | hnew
      · exact hinv.size_le part hdone
      · rw [List.mem_singleton.mp hnew]
        simp
    · intro h
      simp at h
    · apply List.IsChain.append hinv.closed (by simp)
      intro part hpart next hnext
      rw [List.getLast?_append, List.getLast?_singleton, Option.some_or, Option.mem_some_iff] at hpart
      rw [List.head?_singleton, Option.mem_some_iff] at hnext
      subst hpart hnext
      refine ⟨entry, rfl, ?_⟩
      rw [hlength, ← hinv.chunkSize_eq]
      exact hfull

theorem chunkInv_foldl (hmax : 0 < maxTransactionsPerCheckpoint) (entries : List ((E × ℕ) × S)) :
    ∀ (consumed : List ((E × ℕ) × S)) (state : ChunkState E S) (done : List (List ((E × ℕ) × S)))
      (current : List ((E × ℕ) × S)),
      ChunkInv maxTransactionsPerCheckpoint maxCheckpointSizeBytes effectsSize signaturesSize consumed state done current →
      ∃ done' current', ChunkInv maxTransactionsPerCheckpoint maxCheckpointSizeBytes effectsSize signaturesSize
        (consumed ++ entries)
        (entries.foldl (splitStep maxTransactionsPerCheckpoint maxCheckpointSizeBytes effectsSize signaturesSize) state)
        done' current' := by
  induction entries with
  | nil =>
    intro consumed state done current hinv
    exact ⟨done, current, by simpa using hinv⟩
  | cons entry entries ih =>
    intro consumed state done current hinv
    obtain ⟨done', current', hinv'⟩ :=
      hinv.step maxTransactionsPerCheckpoint maxCheckpointSizeBytes effectsSize signaturesSize hmax entry
    simpa using ih _ _ done' current' hinv'

/-- `split_checkpoint_chunks` cuts the zipped input into runs as `Chunking` says, and
returns their effects and signatures. -/
theorem splitCheckpointChunks_chunking (hmax : 0 < maxTransactionsPerCheckpoint)
    (effectsAndTransactionSizes : List (E × ℕ)) (signatures : List S) :
    ∃ parts, Chunking maxTransactionsPerCheckpoint maxCheckpointSizeBytes effectsSize signaturesSize
        (effectsAndTransactionSizes.zip signatures) parts ∧
      splitCheckpointChunks maxTransactionsPerCheckpoint maxCheckpointSizeBytes effectsSize signaturesSize
        effectsAndTransactionSizes signatures = parts.map (·.map chunkEntry) := by
  obtain ⟨done, current, hinv⟩ := chunkInv_foldl maxTransactionsPerCheckpoint maxCheckpointSizeBytes effectsSize
    signaturesSize hmax (effectsAndTransactionSizes.zip signatures) [] ⟨[], [], 0⟩ [] []
    (chunkInv_start maxTransactionsPerCheckpoint maxCheckpointSizeBytes effectsSize signaturesSize)
  rw [List.nil_append] at hinv
  -- the last chunk is pushed: it is open, or it is the heartbeat of an empty input
  have hpush : (!(current.map chunkEntry).isEmpty ∨ (done.map (·.map chunkEntry)).isEmpty) = true := by
    by_cases hnil : current = []
    · simp [hinv.start hnil]
    · simp [hnil]
  refine ⟨done ++ [current], ?_, ?_⟩
  · constructor
    · rw [List.flatten_append, List.flatten_singleton, hinv.flatten_eq]
    · exact hinv.length_le
    · exact hinv.size_le
    · intro hinput
      have hflatten := hinv.flatten_eq
      rw [hinput, List.append_eq_nil_iff] at hflatten
      rw [hinv.start hflatten.2, hflatten.2]
      rfl
    · intro hinput part hpart
      have hcurrent : current ≠ [] := by
        intro hnil
        apply hinput
        rw [← hinv.flatten_eq, hinv.start hnil, hnil]
        rfl
      rcases List.mem_append.mp hpart with hdone | hnew
      · exact hinv.done_ne_nil part hdone
      · rw [List.mem_singleton.mp hnew]
        exact hcurrent
    · exact hinv.closed
  · simp only [splitCheckpointChunks, hinv.chunks_eq, hinv.chunk_eq]
    rw [if_pos (by simpa using hpush), List.map_append, List.map_singleton]

end Split

/-- Two entries fill a chunk of two; the third is larger than a checkpoint and goes
alone; the fourth does not fit beside it. -/
example : splitCheckpointChunks 2 10 id id [(1, 3), (2, 4), (3, 20), (4, 1)] [0, 0, 0, 0] =
    [[(1, 0), (2, 0)], [(3, 0)], [(4, 0)]] := by decide

theorem splitCheckpointChunks_chunking_oversizedEntry :
    0 < 2 ∧ ∃ parts, Chunking 2 10 id id ([(1, 3), (2, 4), (3, 20), (4, 1)].zip [0, 0, 0, 0]) parts ∧
      splitCheckpointChunks 2 10 id id [(1, 3), (2, 4), (3, 20), (4, 1)] [0, 0, 0, 0] = parts.map (·.map chunkEntry) :=
  ⟨by decide, splitCheckpointChunks_chunking 2 10 id id (by decide) _ _⟩

end Iota.Checkpoints
