import Iota.Consensus.Block
import Iota.Lib.Ascending
import Iota.Lib.VecDeque

/-! `Store::scan_last_blocks_by_author` of `RocksDBStore` and `MemStore`
(`consensus/core/src/storage`): both walk the author's references backwards from
`before_round`, take `num_of_rounds` of them and push each to the front of a
`VecDeque`, so that the deque holds them in ascending order.  They then read the
blocks of `refs.as_slices().0` only and zip them with the whole deque; the zip stops
with the blocks read.  The first slice is the whole deque only while the deque has
not wrapped around its buffer. -/

namespace Iota.Consensus

open Iota.Lib

/-- `Round::MAX`, the largest `u32`. -/
def ROUND_MAX : ℕ := 4294967295

/-- `size_of::<BlockRef>()`: a `u32` round, a `u32` author and a 32-byte digest. -/
def BLOCK_REF_SIZE : ℕ := 40

/-- The blocks a store holds, each under its reference; `digests_by_authorities`
holds the reference of every block written. -/
structure BlockStore where
  blocks : List VerifiedBlock

namespace BlockStore

variable (store : BlockStore)

def readBlock (r : BlockRef) : Option VerifiedBlock := store.blocks.find? (·.reference = r)

/-- `read_blocks`: one answer per reference, in order. -/
def readBlocks (refs : List BlockRef) : List (Option VerifiedBlock) := refs.map store.readBlock

/-- The range of `digests_by_authorities` from `(author, 0, MIN)` to
`(author, before_round, MAX)`, in key order. -/
def authorRefs (author beforeRound : ℕ) : List BlockRef :=
  ascending ((store.blocks.map VerifiedBlock.reference).toFinset.filter fun r => r.author = author ∧ r.round ≤ beforeRound)

/-- The deque of references the scan builds: the newest first, each pushed to the front. -/
def refsDeque (author numOfRounds beforeRound : ℕ) : VecDeque BlockRef :=
  VecDeque.new.pushFronts BLOCK_REF_SIZE ((store.authorRefs author beforeRound).reverse.take numOfRounds)

def scanLastBlocksByAuthor (author numOfRounds : ℕ) (beforeRound : Option ℕ) : Option (List VerifiedBlock) :=
  let refs := store.refsDeque author numOfRounds (beforeRound.getD ROUND_MAX)
  let results := store.readBlocks refs.asSlices.1.reduceOption
  -- `unwrap_or_else(panic!("Storage inconsistency"))` on each block read
  (refs.view.reduceOption.zip results).mapM fun entry => entry.2

/-- The last `num_of_rounds` references of the author up to `before_round`, ascending:
what the scan is meant to return the blocks of. -/
def lastRefs (author numOfRounds beforeRound : ℕ) : List BlockRef :=
  ((store.authorRefs author beforeRound).reverse.take numOfRounds).reverse

/-! ### What the scan returns -/

theorem reduceOption_map_some {β : Type*} (l : List β) : (l.map some).reduceOption = l := by
  simp [List.reduceOption, List.filterMap_map]

theorem zip_take_self {β : Type*} : ∀ (l : List β) (j : ℕ), l.zip (l.take j) = (l.take j).map fun x => (x, x)
  | [], _ => by simp
  | _ :: _, 0 => rfl
  | x :: l, j + 1 => by simp [zip_take_self l j]

theorem view_refsDeque (author numOfRounds beforeRound : ℕ) :
    (store.refsDeque author numOfRounds beforeRound).view = (store.lastRefs author numOfRounds beforeRound).map some := by
  rw [refsDeque, (VecDeque.view_pushFronts _ _ VecDeque.wellFormed_new).1]
  simp [lastRefs, VecDeque.view, VecDeque.new]

theorem scanLastBlocksByAuthor_eq (author numOfRounds : ℕ) (beforeRound : Option ℕ) :
    store.scanLastBlocksByAuthor author numOfRounds beforeRound =
      ((store.lastRefs author numOfRounds (beforeRound.getD ROUND_MAX)).take
        (store.refsDeque author numOfRounds (beforeRound.getD ROUND_MAX)).asSlices.1.length).mapM store.readBlock := by
  set refs := store.refsDeque author numOfRounds (beforeRound.getD ROUND_MAX)
  set last := store.lastRefs author numOfRounds (beforeRound.getD ROUND_MAX)
  set j := refs.asSlices.1.length with hj
  have hview : refs.view = last.map some := store.view_refsDeque _ _ _
  have hwf : refs.WellFormed := (VecDeque.view_pushFronts _ _ VecDeque.wellFormed_new).2
  -- the first slice is a prefix of the deque's elements
  have hfirst : refs.asSlices.1 = (last.take j).map some := by
    have htake := congrArg (List.take j) (VecDeque.asSlices_append hwf)
    rwa [hj, List.take_left, hview, ← List.map_take] at htake
  unfold scanLastBlocksByAuthor
  dsimp only
  rw [hview, reduceOption_map_some, hfirst, reduceOption_map_some, readBlocks, List.zip_map_right,
    zip_take_self, List.map_map, List.mapM_map]
  rfl

theorem readBlock_isSome {author beforeRound : ℕ} {r : BlockRef} (hr : r ∈ store.authorRefs author beforeRound) :
    (store.readBlock r).isSome := by
  simp only [authorRefs, mem_ascending, Finset.mem_filter, List.mem_toFinset, List.mem_map] at hr
  obtain ⟨⟨b, hb, rfl⟩, -⟩ := hr
  rw [readBlock, List.find?_isSome]
  exact ⟨b, hb, by simp⟩

/-! ### The first slice of a deque of references -/

/-- How many of `count` references pushed to the front of a fresh deque its first slice
holds.  Where they go does not depend on them, so a deque of `Unit`s computes it. -/
def firstSliceLength (count : ℕ) : ℕ :=
  let d := (VecDeque.new : VecDeque Unit).pushFronts BLOCK_REF_SIZE (List.replicate count ())
  min d.len (d.cap - d.head)

theorem length_asSlices_fst_pushFronts {β : Type*} (refs : List β) :
    (VecDeque.new.pushFronts BLOCK_REF_SIZE refs).asSlices.1.length = firstSliceLength refs.length := by
  have hwf := (VecDeque.view_pushFronts BLOCK_REF_SIZE refs (VecDeque.wellFormed_new (α := β))).2
  have hshape := @VecDeque.shape_pushFronts β Unit BLOCK_REF_SIZE refs (List.replicate refs.length ()) VecDeque.new
    VecDeque.new (by simp) rfl
  simp only [VecDeque.shape, Prod.mk.injEq] at hshape
  rw [VecDeque.length_asSlices_fst hwf, hshape.1, hshape.2.1, hshape.2.2]
  rfl

theorem firstSliceLength_of_le_four {count : ℕ} (h : count ≤ 4) : firstSliceLength count = count := by
  have hsmall : ∀ n < 5, firstSliceLength n = n := by decide
  exact hsmall count (by omega)

theorem firstSliceLength_five : firstSliceLength 5 = 1 := by decide

theorem scanLastBlocksByAuthor_eq_take (author numOfRounds : ℕ) (beforeRound : Option ℕ) :
    store.scanLastBlocksByAuthor author numOfRounds beforeRound =
      ((store.lastRefs author numOfRounds (beforeRound.getD ROUND_MAX)).take
        (firstSliceLength (store.lastRefs author numOfRounds (beforeRound.getD ROUND_MAX)).length)).mapM
        store.readBlock := by
  rw [scanLastBlocksByAuthor_eq, refsDeque, length_asSlices_fst_pushFronts, lastRefs, List.length_reverse]

theorem length_lastRefs (author numOfRounds beforeRound : ℕ) :
    (store.lastRefs author numOfRounds beforeRound).length =
      min numOfRounds (store.authorRefs author beforeRound).length := by
  simp [lastRefs]

/-- Five blocks of authority 0, at rounds 1 to 5. -/
def fiveRounds : BlockStore := ⟨(List.range 5).map fun i => ⟨i + 1, 0, 0, 0, [], by simp⟩⟩

/-- While at most four references are taken, the scan returns the blocks of the
last ones, in ascending order. -/
theorem scanLastBlocksByAuthor_of_le_four (author numOfRounds : ℕ) (beforeRound : Option ℕ)
    (hfew : min numOfRounds (store.authorRefs author (beforeRound.getD ROUND_MAX)).length ≤ 4) :
    store.scanLastBlocksByAuthor author numOfRounds beforeRound =
      (store.lastRefs author numOfRounds (beforeRound.getD ROUND_MAX)).mapM store.readBlock := by
  rw [scanLastBlocksByAuthor_eq_take, length_lastRefs, firstSliceLength_of_le_four hfew, ← length_lastRefs,
    List.take_length]

theorem scanLastBlocksByAuthor_of_le_four_fiveRounds :
    min 4 (fiveRounds.authorRefs 0 ((none : Option ℕ).getD ROUND_MAX)).length ≤ 4 ∧
      fiveRounds.scanLastBlocksByAuthor 0 4 none =
        (fiveRounds.lastRefs 0 4 ((none : Option ℕ).getD ROUND_MAX)).mapM fiveRounds.readBlock :=
  ⟨min_le_left _ _, fiveRounds.scanLastBlocksByAuthor_of_le_four 0 4 none (min_le_left _ _)⟩

theorem mapM_readBlock_of_subset {author beforeRound : ℕ} :
    ∀ {refs : List BlockRef}, (∀ r ∈ refs, r ∈ store.authorRefs author beforeRound) →
      ∃ blocks, refs.mapM store.readBlock = some blocks ∧ blocks.length = refs.length
  | [], _ => ⟨[], rfl, rfl⟩
  | r :: refs, h => by
    obtain ⟨b, hb⟩ := Option.isSome_iff_exists.mp (store.readBlock_isSome (h r List.mem_cons_self))
    obtain ⟨blocks, hblocks, hlen⟩ := mapM_readBlock_of_subset fun r' hr' => h r' (List.mem_cons_of_mem r hr')
    exact ⟨b :: blocks, by simp [hb, hblocks], by simp [hlen]⟩

theorem lastRefs_subset {author numOfRounds beforeRound : ℕ} {r : BlockRef}
    (hr : r ∈ store.lastRefs author numOfRounds beforeRound) : r ∈ store.authorRefs author beforeRound := by
  rw [lastRefs, List.mem_reverse] at hr
  exact List.mem_reverse.mp (List.mem_of_mem_take hr)

/-- With five references or more of the author, the store holds the five blocks a
scan of five is for, and the scan returns one of them. -/
theorem scanLastBlocksByAuthor_five_returns_one (author : ℕ) (beforeRound : Option ℕ)
    (hmany : 5 ≤ (store.authorRefs author (beforeRound.getD ROUND_MAX)).length) :
    (∃ blocks, (store.lastRefs author 5 (beforeRound.getD ROUND_MAX)).mapM store.readBlock = some blocks ∧
        blocks.length = 5) ∧
      ∃ b, store.scanLastBlocksByAuthor author 5 beforeRound = some [b] := by
  have hlen : (store.lastRefs author 5 (beforeRound.getD ROUND_MAX)).length = 5 := by
    rw [length_lastRefs]
    omega
  obtain ⟨blocks, hblocks, hblen⟩ := store.mapM_readBlock_of_subset fun r hr => store.lastRefs_subset hr
  refine ⟨⟨blocks, hblocks, hblen.trans hlen⟩, ?_⟩
  -- the scan reads the first of the five references only
  obtain ⟨first, hfirst⟩ : ∃ first, (store.lastRefs author 5 (beforeRound.getD ROUND_MAX)).take 1 = [first] := by
    rcases hrefs : store.lastRefs author 5 (beforeRound.getD ROUND_MAX) with _ | ⟨first, rest⟩
    · rw [hrefs] at hlen
      exact absurd hlen (by decide)
    · exact ⟨first, rfl⟩
  obtain ⟨b, hb⟩ := Option.isSome_iff_exists.mp
    (store.readBlock_isSome (store.lastRefs_subset (List.mem_of_mem_take (hfirst ▸ List.mem_singleton_self first))))
  refine ⟨b, ?_⟩
  rw [scanLastBlocksByAuthor_eq_take, hlen, firstSliceLength_five, hfirst]
  simp [hb]


theorem scanLastBlocksByAuthor_fiveRounds :
    5 ≤ (fiveRounds.authorRefs 0 ((none : Option ℕ).getD ROUND_MAX)).length ∧
      (∃ blocks, (fiveRounds.lastRefs 0 5 ((none : Option ℕ).getD ROUND_MAX)).mapM fiveRounds.readBlock =
          some blocks ∧ blocks.length = 5) ∧
        ∃ b, fiveRounds.scanLastBlocksByAuthor 0 5 none = some [b] :=
  have hmany : 5 ≤ (fiveRounds.authorRefs 0 ((none : Option ℕ).getD ROUND_MAX)).length := by decide
  ⟨hmany, fiveRounds.scanLastBlocksByAuthor_five_returns_one 0 none hmany⟩

end BlockStore

end Iota.Consensus
