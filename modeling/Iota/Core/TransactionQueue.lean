import Mathlib

/-! `TransactionQueue` of `crates/iota-core/src/transaction_manager.rs`: the transactions
waiting on an object, with the time each was queued.  `digests` maps each queued digest
to its time; `ages`, a `BinaryHeap<(Reverse<Instant>, TransactionDigest)>`, holds an
entry for every insertion, and `remove` deletes lazily: it pops entries off the top of
the heap only until the top is queued again, at exactly the time of the entry.  The heap
is modelled by its contents, with `peek` the greatest entry and `pop` its removal;
instants are numbers. -/

namespace Iota.Core

/-- An element of `ages`, `(Reverse(time), digest)`. -/
structure AgeEntry where
  time : ℕ
  digest : ℕ
  deriving DecidableEq, Repr

namespace AgeEntry

/-- The order of the tuple `(Reverse<Instant>, TransactionDigest)`: the earlier time is
the greater, then the greater digest. -/
def key (e : AgeEntry) : Lex (ℤ × ℕ) := toLex (-(e.time : ℤ), e.digest)

theorem key_injective : Function.Injective key := by
  intro a b h
  cases a
  cases b
  simp only [key, toLex_inj, Prod.mk.injEq] at h
  obtain ⟨htime, rfl⟩ := h
  congr
  omega

instance : LinearOrder AgeEntry := LinearOrder.lift' key key_injective

theorem time_le_of_le {a b : AgeEntry} (h : a ≤ b) : b.time ≤ a.time := by
  have hkey : a.key ≤ b.key := h
  rcases Prod.Lex.le_iff.mp hkey with hlt | ⟨heq, -⟩
  · have : -(a.time : ℤ) < -(b.time : ℤ) := hlt
    omega
  · have : -(a.time : ℤ) = -(b.time : ℤ) := heq
    omega

end AgeEntry

structure TransactionQueue where
  digests : AList fun _ : ℕ => ℕ
  ages : List AgeEntry

namespace TransactionQueue

def empty : TransactionQueue := ⟨∅, []⟩

def len (q : TransactionQueue) : ℕ := q.digests.entries.length

/-- `insert`: a digest already queued keeps its time. -/
def insert (q : TransactionQueue) (digest time : ℕ) : TransactionQueue :=
  match q.digests.lookup digest with
  | some _ => q
  | none => ⟨q.digests.insert digest time, q.ages ++ [⟨time, digest⟩]⟩

/-- The loop of `remove`: pop the top of the heap while it is not queued at its time. -/
def cleanAges (digests : AList fun _ : ℕ => ℕ) : ℕ → List AgeEntry → List AgeEntry
  | 0, ages => ages
  | fuel + 1, ages =>
    match ages.max? with
    | none => ages
    | some first => if digests.lookup first.digest = some first.time then ages else cleanAges digests fuel (ages.erase first)

/-- `remove`: the time the digest was queued with, if it was. -/
def remove (q : TransactionQueue) (digest : ℕ) : Option ℕ × TransactionQueue :=
  match q.digests.lookup digest with
  | none => (none, q)
  | some time =>
    let digests := q.digests.erase digest
    (some time, ⟨digests, cleanAges digests q.ages.length q.ages⟩)

/-- `first`: the top of the heap. -/
def first (q : TransactionQueue) : Option (ℕ × ℕ) := q.ages.max?.map fun e => (e.time, e.digest)

end TransactionQueue

/-! ### What the queue holds -/

inductive QueueOp
  | insert (digest time : ℕ)
  | remove (digest : ℕ)
  deriving DecidableEq, Repr

def QueueOp.digest : QueueOp → ℕ
  | .insert digest _ => digest
  | .remove digest => digest

/-- One call, `insert` or `remove`, on the queue. -/
def TransactionQueue.apply (q : TransactionQueue) : QueueOp → TransactionQueue
  | .insert digest time => q.insert digest time
  | .remove digest => (q.remove digest).2

/-- The queue after a sequence of calls from the empty one. -/
def TransactionQueue.run (ops : List QueueOp) : TransactionQueue := ops.foldl TransactionQueue.apply .empty

/-- What a call does to the queued digests and their times: an insertion of a digest not
queued queues it at its time, a removal takes it out. -/
def QueueOp.applyLive (live : ℕ → Option ℕ) : QueueOp → ℕ → Option ℕ
  | .insert digest time => if live digest = none then Function.update live digest (some time) else live
  | .remove digest => Function.update live digest none

def liveAfter (ops : List QueueOp) : ℕ → Option ℕ := ops.foldl QueueOp.applyLive fun _ => none

/-- The digests queued after the operations. -/
def liveDigests (ops : List QueueOp) : Finset ℕ :=
  (ops.map QueueOp.digest).toFinset.filter fun digest => (liveAfter ops digest).isSome

theorem mem_of_liveAfter_isSome {ops : List QueueOp} {digest : ℕ} (h : (liveAfter ops digest).isSome) :
    digest ∈ ops.map QueueOp.digest := by
  -- the digests outside the calls keep the empty start, whatever the start
  have hkeep : ∀ (ops : List QueueOp) (live : ℕ → Option ℕ), digest ∉ ops.map QueueOp.digest →
      ops.foldl QueueOp.applyLive live digest = live digest := by
    intro ops
    induction ops with
    | nil => intro live _; rfl
    | cons op ops ih =>
      intro live hnot
      rw [List.map_cons, List.mem_cons, not_or] at hnot
      rw [List.foldl_cons, ih _ hnot.2]
      cases op with
      | insert d time =>
        have hne : digest ≠ d := hnot.1
        simp only [QueueOp.applyLive]
        split_ifs <;> simp [Function.update, hne]
      | remove d =>
        have hne : digest ≠ d := hnot.1
        simp [QueueOp.applyLive, Function.update, hne]
  by_contra hnot
  rw [liveAfter, hkeep ops _ hnot] at h
  exact Bool.false_ne_true h

namespace TransactionQueue

/-- The queue stands for the map of queued digests: `digests` is that map, every queued
digest has its entry in `ages`, and the top of `ages` is queued at its time. -/
structure Refines (q : TransactionQueue) (live : ℕ → Option ℕ) : Prop where
  lookup_eq : ∀ digest, q.digests.lookup digest = live digest
  mem_ages : ∀ digest time, live digest = some time → ⟨time, digest⟩ ∈ q.ages
  top_live : ∀ top, q.ages.max? = some top → live top.digest = some top.time

theorem refines_empty : Refines .empty fun _ => none where
  lookup_eq := fun _ => rfl
  mem_ages := fun _ _ h => absurd h (by simp)
  top_live := fun _ h => absurd h (by simp [empty])

theorem Refines.insert {q : TransactionQueue} {live : ℕ → Option ℕ} (hq : Refines q live) (digest time : ℕ) :
    Refines (q.insert digest time) ((QueueOp.insert digest time).applyLive live) := by
  cases hlive : live digest with
  | some old =>
    have hlookup : q.digests.lookup digest = some old := (hq.lookup_eq digest).trans hlive
    simpa [TransactionQueue.insert, QueueOp.applyLive, hlookup, hlive] using hq
  | none =>
    have hlookup : q.digests.lookup digest = none := (hq.lookup_eq digest).trans hlive
    simp only [TransactionQueue.insert, QueueOp.applyLive, hlookup, hlive, if_true]
    constructor
    · intro d
      by_cases hd : d = digest
      · subst hd
        simp
      · simp [AList.lookup_insert_ne hd, Function.update, hd, hq.lookup_eq d]
    · intro d t ht
      by_cases hd : d = digest
      · subst hd
        simp at ht
        simp [ht]
      · rw [Function.update_of_ne hd] at ht
        exact List.mem_append_left _ (hq.mem_ages d t ht)
    · -- the new top is the new entry or the old top, which is still queued
      intro top htop
      rw [List.max?_eq_some_iff] at htop
      rcases List.mem_append.mp htop.1 with hold | hnew
      · have holdtop : q.ages.max? = some top :=
          List.max?_eq_some_iff.mpr ⟨hold, fun b hb => htop.2 b (List.mem_append_left _ hb)⟩
        have hlivetop := hq.top_live top holdtop
        have hne : top.digest ≠ digest := fun h => by rw [h, hlive] at hlivetop; cases hlivetop
        rw [Function.update_of_ne hne]
        exact hlivetop
      · rw [List.mem_singleton.mp hnew]
        simp

theorem cleanAges_spec (digests : AList fun _ : ℕ => ℕ) :
    ∀ (fuel : ℕ) (ages : List AgeEntry), ages.length ≤ fuel →
      (∀ e ∈ ages, digests.lookup e.digest = some e.time → e ∈ cleanAges digests fuel ages) ∧
      ∀ top, (cleanAges digests fuel ages).max? = some top → digests.lookup top.digest = some top.time := by
  intro fuel
  induction fuel with
  | zero =>
    intro ages hlen
    rw [List.length_eq_zero_iff.mp (Nat.le_zero.mp hlen)]
    simp [cleanAges]
  | succ fuel ih =>
    intro ages hlen
    cases hmax : ages.max? with
    | none =>
      simp only [cleanAges, hmax, reduceCtorEq, false_imp_iff, implies_true, and_true]
      exact fun e he _ => he
    | some first =>
      by_cases hfirst : digests.lookup first.digest = some first.time
      · simp only [cleanAges, hmax, if_pos hfirst]
        refine ⟨fun e he _ => he, ?_⟩
        intro top htop
        cases htop
        exact hfirst
      · -- the stale top is popped, and the loop goes on with one entry fewer
        simp only [cleanAges, hmax, if_neg hfirst]
        have hmem : first ∈ ages := (List.max?_eq_some_iff.mp hmax).1
        have hlen' : (ages.erase first).length ≤ fuel := by
          rw [List.length_erase_of_mem hmem]
          omega
        obtain ⟨hkeep, htop⟩ := ih (ages.erase first) hlen'
        refine ⟨?_, htop⟩
        intro e he hlive
        have hne : e ≠ first := fun h => hfirst (h ▸ hlive)
        exact hkeep e ((List.mem_erase_of_ne hne).mpr he) hlive

theorem Refines.remove {q : TransactionQueue} {live : ℕ → Option ℕ} (hq : Refines q live) (digest : ℕ) :
    (q.remove digest).1 = live digest ∧ Refines (q.remove digest).2 ((QueueOp.remove digest).applyLive live) := by
  cases hlive : live digest with
  | none =>
    have hlookup : q.digests.lookup digest = none := (hq.lookup_eq digest).trans hlive
    have hsame : Function.update live digest none = live := by
      rw [← hlive, Function.update_eq_self]
    simpa [TransactionQueue.remove, QueueOp.applyLive, hlookup, hsame] using hq
  | some time =>
    have hlookup : q.digests.lookup digest = some time := (hq.lookup_eq digest).trans hlive
    simp only [TransactionQueue.remove, QueueOp.applyLive, hlookup, true_and]
    have hlookup' : ∀ d, (q.digests.erase digest).lookup d = Function.update live digest none d := by
      intro d
      by_cases hd : d = digest
      · subst hd
        simp
      · rw [AList.lookup_erase_ne hd, Function.update_of_ne hd, hq.lookup_eq d]
    obtain ⟨hkeep, htop⟩ := cleanAges_spec (q.digests.erase digest) q.ages.length q.ages le_rfl
    constructor
    · exact hlookup'
    · intro d t ht
      apply hkeep _ (hq.mem_ages d t ?_) ((hlookup' d).trans ht)
      by_cases hd : d = digest
      · subst hd
        simp at ht
      · rwa [Function.update_of_ne hd] at ht
    · intro top h
      rw [← hlookup']
      exact htop top h

theorem Refines.apply {q : TransactionQueue} {live : ℕ → Option ℕ} (hq : Refines q live) (op : QueueOp) :
    Refines (q.apply op) (op.applyLive live) := by
  cases op with
  | insert digest time => exact hq.insert digest time
  | remove digest => exact (hq.remove digest).2

theorem refines_run (ops : List QueueOp) : Refines (run ops) (liveAfter ops) := by
  have hfold : ∀ (ops : List QueueOp) (q : TransactionQueue) (live : ℕ → Option ℕ), Refines q live →
      Refines (ops.foldl TransactionQueue.apply q) (ops.foldl QueueOp.applyLive live) := by
    intro ops
    induction ops with
    | nil => intro q live hq; exact hq
    | cons op ops ih => intro q live hq; exact ih _ _ (hq.apply op)
  exact hfold ops _ _ refines_empty

/-- The queue after any calls, re-insertions and repeated times included: `len` counts
the queued digests, `remove` returns the time a digest was queued with, and `first` is
`None` exactly when nothing is queued and otherwise a queued digest of the earliest time. -/
theorem run_spec (ops : List QueueOp) :
    (run ops).len = (liveDigests ops).card ∧
    (∀ digest, ((run ops).remove digest).1 = liveAfter ops digest) ∧
    ((run ops).first = none ↔ ∀ digest, liveAfter ops digest = none) ∧
    ∀ time digest, (run ops).first = some (time, digest) →
      liveAfter ops digest = some time ∧ ∀ digest' time', liveAfter ops digest' = some time' → time ≤ time' := by
  have hq := refines_run ops
  have hkeys : (run ops).digests.keys.toFinset = liveDigests ops := by
    ext digest
    rw [List.mem_toFinset, ← AList.mem_keys, ← AList.lookup_isSome, hq.lookup_eq, liveDigests, Finset.mem_filter,
      List.mem_toFinset]
    exact ⟨fun h => ⟨mem_of_liveAfter_isSome h, h⟩, fun h => h.2⟩
  refine ⟨?_, fun digest => (hq.remove digest).1, ?_, ?_⟩
  · rw [← hkeys, List.toFinset_card_of_nodup (run ops).digests.keys_nodup, len, AList.keys, List.keys,
      List.length_map]
  · rw [first, Option.map_eq_none_iff, List.max?_eq_none_iff]
    constructor
    · intro hnil digest
      cases hlive : liveAfter ops digest with
      | none => rfl
      | some time =>
        have hmem := hq.mem_ages digest time hlive
        rw [hnil] at hmem
        cases hmem
    · intro hnone
      cases hages : (run ops).ages with
      | nil => rfl
      | cons e rest =>
        have hmem : e ∈ (run ops).ages := by
          rw [hages]
          exact List.mem_cons_self
        obtain ⟨top, htop⟩ := Option.isSome_iff_exists.mp (List.isSome_max?_of_mem hmem)
        have hlive := hq.top_live top htop
        rw [hnone] at hlive
        cases hlive
  · intro time digest hfirst
    obtain ⟨top, htop, heq⟩ := Option.map_eq_some_iff.mp hfirst
    cases heq
    refine ⟨hq.top_live top htop, ?_⟩
    intro digest' time' hlive
    exact AgeEntry.time_le_of_le ((List.max?_eq_some_iff.mp htop).2 _ (hq.mem_ages digest' time' hlive))

/-- A digest removed and queued again at its old time leaves a stale entry equal to the
live one; the top is still queued. -/
example : (run [.insert 1 5, .insert 2 3, .remove 1, .insert 1 5, .remove 2]).first = some (5, 1) := by decide

end TransactionQueue

end Iota.Core
