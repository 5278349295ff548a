import Iota.Lib.BigEndian

/-! The byte bounds `DBMap` gives RocksDB for a range of typed keys
(`crates/typed-store/src/rocks/mod.rs`).  A key is stored under `be_fix_int_ser`,
bincode's big-endian fixed-width encoding, and RocksDB compares keys bytewise.  An
inclusive lower and an exclusive upper end are the key's own bytes; an exclusive
lower and an inclusive upper end are moved to the next byte string by
`big_endian_saturating_add_one`, which cannot move past a key of all `0xFF` bytes.
RocksDB itself is modelled by its contract: an iterator yields the stored keys from
its lower bound on and below its upper bound. -/

namespace Iota.Storage

open Iota.Lib

/-- The `Serialize` implementation of a key type, under bincode's big-endian
fixed-width options. -/
class BeFixIntSer (K : Type*) where
  ser : K → List (Fin 256)

/-- `be_fix_int_ser`; it does not fail on the key types modelled. -/
def beFixIntSer {K : Type*} [BeFixIntSer K] (key : K) : List (Fin 256) := BeFixIntSer.ser key

/-- `is_max`: every byte is `0xFF`. -/
def isMax (v : List (Fin 256)) : Bool := v.all (· == 255)

/-- The loop of `big_endian_saturating_add_one`, over the bytes from the last one:
a `0xFF` becomes `0` and the loop goes on, any other byte is incremented and the
loop stops. -/
def addOneFromEnd : List (Fin 256) → List (Fin 256)
  | [] => []
  | b :: bs => if b = 255 then 0 :: addOneFromEnd bs else (b + 1) :: bs

def bigEndianSaturatingAddOne (v : List (Fin 256)) : List (Fin 256) :=
  if isMax v then v else (addOneFromEnd v.reverse).reverse

/-- `std::ops::Bound`. -/
inductive Bound (α : Type*)
  | included (a : α)
  | excluded (a : α)
  | unbounded
  deriving DecidableEq, Repr

/-- The bounds of a RocksDB `ReadOptions`; the other options are not modelled. -/
structure ReadOptions where
  iterateLowerBound : Option (List (Fin 256))
  iterateUpperBound : Option (List (Fin 256))

/-- Whether an iterator under these options yields a key: from the lower bound on,
and below the upper bound, in the bytewise order. -/
def ReadOptions.admits (o : ReadOptions) (key : List (Fin 256)) : Bool :=
  (o.iterateLowerBound.all fun lower => decide (lower ≤ key)) && o.iterateUpperBound.all fun upper => decide (key < upper)

variable {K V : Type*} [BeFixIntSer K]

/-- `create_read_options_with_bounds`: the lower bound inclusive, the upper exclusive. -/
def createReadOptionsWithBounds (lowerBound upperBound : Option K) : ReadOptions :=
  ⟨lowerBound.map beFixIntSer, upperBound.map beFixIntSer⟩

def createReadOptionsWithRange (startBound endBound : Bound K) : ReadOptions :=
  ⟨match startBound with
    | .included lowerBound => some (beFixIntSer lowerBound)
    -- since we want exclusive, the key is incremented to exclude it
    | .excluded lowerBound => some (bigEndianSaturatingAddOne (beFixIntSer lowerBound))
    | .unbounded => none,
   match endBound with
    | .included upperBound =>
      let keyBuf := beFixIntSer upperBound
      -- a key at the limit leaves no upper bound
      if !isMax keyBuf then some (bigEndianSaturatingAddOne keyBuf) else none
    | .excluded upperBound => some (beFixIntSer upperBound)
    | .unbounded => none⟩

/-- A column family with keys `K`, its entries in the bytewise order of their keys. -/
structure DBMap (K V : Type*) [BeFixIntSer K] where
  entries : List (K × V)
  sorted : entries.Pairwise fun a b => beFixIntSer a.1 < beFixIntSer b.1

namespace DBMap

def safeIterWithBounds (m : DBMap K V) (lowerBound upperBound : Option K) : List (K × V) :=
  m.entries.filter fun e => (createReadOptionsWithBounds lowerBound upperBound).admits (beFixIntSer e.1)

def safeRangeIter (m : DBMap K V) (startBound endBound : Bound K) : List (K × V) :=
  m.entries.filter fun e => (createReadOptionsWithRange startBound endBound).admits (beFixIntSer e.1)

end DBMap

/-! ### Incrementing a byte string -/

theorem isMax_iff {v : List (Fin 256)} : isMax v = true ↔ ∀ b ∈ v, b = 255 := by
  simp [isMax]

theorem length_addOneFromEnd : ∀ r : List (Fin 256), (addOneFromEnd r).length = r.length
  | [] => rfl
  | b :: bs => by
    rw [addOneFromEnd]
    split_ifs <;> simp [length_addOneFromEnd bs]

theorem length_bigEndianSaturatingAddOne (v : List (Fin 256)) : (bigEndianSaturatingAddOne v).length = v.length := by
  unfold bigEndianSaturatingAddOne
  split_ifs <;> simp [length_addOneFromEnd]

theorem beValue_reverse_addOneFromEnd :
    ∀ {r : List (Fin 256)}, (∃ b ∈ r, b ≠ 255) → beValue (addOneFromEnd r).reverse = beValue r.reverse + 1
  | [], ⟨_, hb, _⟩ => absurd hb List.not_mem_nil
  | b :: bs, hr => by
    rw [addOneFromEnd]
    by_cases hb : b = 255
    · -- a carry: the rest of the bytes has a byte below `0xFF`
      have hbs : ∃ c ∈ bs, c ≠ 255 := by
        obtain ⟨c, hc, hne⟩ := hr
        rcases List.mem_cons.mp hc with rfl | hc
        · exact absurd hb hne
        · exact ⟨c, hc, hne⟩
      rw [if_pos hb, List.reverse_cons, List.reverse_cons, beValue_append, beValue_append,
        beValue_reverse_addOneFromEnd hbs, hb]
      simp [beValue]
      ring
    · have hlt : (b : ℕ) < 255 := lt_of_le_of_ne (Nat.le_of_lt_succ b.isLt) (fun h => hb (Fin.ext h))
      rw [if_neg hb, List.reverse_cons, List.reverse_cons, beValue_append, beValue_append]
      simp [beValue, Fin.val_add_one_of_lt (show b < Fin.last 255 from hlt)]
      ring

theorem beValue_bigEndianSaturatingAddOne {v : List (Fin 256)} (h : isMax v = false) :
    beValue (bigEndianSaturatingAddOne v) = beValue v + 1 := by
  have hne : ∃ b ∈ v.reverse, b ≠ 255 := by
    simpa [isMax] using h
  rw [bigEndianSaturatingAddOne, if_neg (by simp [h]), beValue_reverse_addOneFromEnd hne, List.reverse_reverse]

theorem beValue_of_isMax : ∀ {v : List (Fin 256)}, isMax v = true → beValue v + 1 = 256 ^ v.length
  | [], _ => by simp [beValue]
  | b :: bs, h => by
    have hb : b = 255 := Iff.mp isMax_iff h b List.mem_cons_self
    have hbs : isMax bs = true := Iff.mpr isMax_iff fun c hc => Iff.mp isMax_iff h c (List.mem_cons_of_mem b hc)
    have ih := beValue_of_isMax hbs
    have h255 : ((255 : Fin 256) : ℕ) = 255 := rfl
    rw [beValue, hb, h255, List.length_cons, pow_succ]
    omega

theorem lt_bigEndianSaturatingAddOne_iff {v x : List (Fin 256)} (hlen : x.length = v.length) (h : isMax v = false) :
    x < bigEndianSaturatingAddOne v ↔ x ≤ v := by
  rw [lt_iff_beValue_lt (hlen.trans (length_bigEndianSaturatingAddOne v).symm), le_iff_beValue_le hlen,
    beValue_bigEndianSaturatingAddOne h]
  omega

theorem bigEndianSaturatingAddOne_le_iff {v x : List (Fin 256)} (hlen : x.length = v.length) (h : isMax v = false) :
    bigEndianSaturatingAddOne v ≤ x ↔ v < x := by
  rw [← not_lt, lt_bigEndianSaturatingAddOne_iff hlen h, not_le]

theorem le_of_isMax {v x : List (Fin 256)} (hlen : x.length = v.length) (h : isMax v = true) : x ≤ v := by
  rw [le_iff_beValue_le hlen]
  have hx := beValue_lt x
  have hv := beValue_of_isMax h
  rw [hlen] at hx
  omega

theorem bigEndianSaturatingAddOne_of_isMax {v : List (Fin 256)} (h : isMax v = true) : bigEndianSaturatingAddOne v = v :=
  if_pos h

/-! ### What a range iterator yields -/

section Range

variable [LT K] [LE K]

/-- Whether `k` is within the start of a range, as `RangeBounds::contains` reads it. -/
def Bound.startContains : Bound K → K → Prop
  | .included s, k => s ≤ k
  | .excluded s, k => s < k
  | .unbounded, _ => True

def Bound.endContains : Bound K → K → Prop
  | .included e, k => k ≤ e
  | .excluded e, k => k < e
  | .unbounded, _ => True

variable (K) in
/-- The encoding orders keys as `K` does. -/
structure SerOrdered : Prop where
  lt_iff : ∀ a b : K, beFixIntSer a < beFixIntSer b ↔ a < b
  le_iff : ∀ a b : K, beFixIntSer a ≤ beFixIntSer b ↔ a ≤ b

variable (K) in
/-- Every key is encoded in the same number of bytes. -/
def FixedWidth : Prop := ∀ a b : K, (beFixIntSer a).length = (beFixIntSer b).length

variable (hord : SerOrdered K)
include hord

theorem admits_createReadOptionsWithBounds (lowerBound upperBound : Option K) (k : K) :
    (createReadOptionsWithBounds lowerBound upperBound).admits (beFixIntSer k) = true ↔
      (∀ l ∈ lowerBound, l ≤ k) ∧ ∀ u ∈ upperBound, k < u := by
  cases lowerBound <;> cases upperBound <;>
    simp [createReadOptionsWithBounds, ReadOptions.admits, hord.le_iff, hord.lt_iff]

theorem mem_safeIterWithBounds (m : DBMap K V) (lowerBound upperBound : Option K) (e : K × V) :
    e ∈ m.safeIterWithBounds lowerBound upperBound ↔
      e ∈ m.entries ∧ (∀ l ∈ lowerBound, l ≤ e.1) ∧ ∀ u ∈ upperBound, e.1 < u := by
  rw [DBMap.safeIterWithBounds, List.mem_filter, admits_createReadOptionsWithBounds hord]

theorem admits_start (hwidth : FixedWidth K) {startBound : Bound K}
    (hstart : ∀ s, startBound = .excluded s → isMax (beFixIntSer s) = false) (k : K) :
    (match startBound with
      | .included lowerBound => some (beFixIntSer lowerBound)
      | .excluded lowerBound => some (bigEndianSaturatingAddOne (beFixIntSer lowerBound))
      | .unbounded => none).all (fun lower => decide (lower ≤ beFixIntSer k)) = true ↔
      startBound.startContains k := by
  cases startBound with
  | included s => simp [Bound.startContains, hord.le_iff]
  | excluded s =>
    simp [Bound.startContains, bigEndianSaturatingAddOne_le_iff (hwidth k s) (hstart s rfl), hord.lt_iff]
  | unbounded => simp [Bound.startContains]

theorem admits_end (hwidth : FixedWidth K) (endBound : Bound K) (k : K) :
    (match endBound with
      | .included upperBound =>
        let keyBuf := beFixIntSer upperBound
        if !isMax keyBuf then some (bigEndianSaturatingAddOne keyBuf) else none
      | .excluded upperBound => some (beFixIntSer upperBound)
      | .unbounded => none).all (fun upper => decide (beFixIntSer k < upper)) = true ↔
      endBound.endContains k := by
  cases endBound with
  | included e =>
    by_cases hmax : isMax (beFixIntSer e) = true
    · -- no upper bound: every key is at most the last one
      simp [Bound.endContains, hmax, ← hord.le_iff, le_of_isMax (hwidth k e) hmax]
    · have hmax : isMax (beFixIntSer e) = false := by simpa using hmax
      simp [Bound.endContains, hmax, lt_bigEndianSaturatingAddOne_iff (hwidth k e) hmax, hord.le_iff]
  | excluded e => simp [Bound.endContains, hord.lt_iff]
  | unbounded => simp [Bound.endContains]

theorem admits_createReadOptionsWithRange (hwidth : FixedWidth K) {startBound : Bound K}
    (hstart : ∀ s, startBound = .excluded s → isMax (beFixIntSer s) = false) (endBound : Bound K) (k : K) :
    (createReadOptionsWithRange startBound endBound).admits (beFixIntSer k) = true ↔
      startBound.startContains k ∧ endBound.endContains k := by
  unfold createReadOptionsWithRange
  rw [ReadOptions.admits, Bool.and_eq_true, admits_start hord hwidth hstart, admits_end hord hwidth]

theorem mem_safeRangeIter (hwidth : FixedWidth K) (m : DBMap K V) {startBound : Bound K}
    (hstart : ∀ s, startBound = .excluded s → isMax (beFixIntSer s) = false) (endBound : Bound K) (e : K × V) :
    e ∈ m.safeRangeIter startBound endBound ↔
      e ∈ m.entries ∧ startBound.startContains e.1 ∧ endBound.endContains e.1 := by
  rw [DBMap.safeRangeIter, List.mem_filter, admits_createReadOptionsWithRange hord hwidth hstart]

/-- A range that starts after a key of all `0xFF` bytes yields that key: the
increment saturates and leaves the lower bound at the key itself. -/
theorem safeRangeIter_excluded_max (m : DBMap K V) {k : K} {v : V} (hmax : isMax (beFixIntSer k) = true)
    (hk : (k, v) ∈ m.entries) :
    (k, v) ∈ m.safeRangeIter (.excluded k) .unbounded ∧ ¬ (Bound.excluded k).startContains k := by
  refine ⟨?_, fun hlt => lt_irrefl (beFixIntSer k) ((hord.lt_iff k k).mpr hlt)⟩
  rw [DBMap.safeRangeIter, List.mem_filter]
  refine ⟨hk, ?_⟩
  simp [createReadOptionsWithRange, ReadOptions.admits, bigEndianSaturatingAddOne_of_isMax hmax]

end Range

theorem SerOrdered.of_lt_iff [LinearOrder K] (h : ∀ a b : K, beFixIntSer a < beFixIntSer b ↔ a < b) :
    SerOrdered K :=
  ⟨h, fun a b => by rw [← not_lt, ← not_lt, h]⟩

/-! ### `u64` keys -/

instance : BeFixIntSer UInt64 := ⟨fun x => beBytes 8 x.toNat⟩

@[simp] theorem beFixIntSer_uint64 (a : UInt64) : beFixIntSer a = beBytes 8 a.toNat := rfl

theorem beBytes_toNat_lt_iff (a b : UInt64) : beBytes 8 a.toNat < beBytes 8 b.toNat ↔ a < b := by
  rw [UInt64.lt_iff_toNat_lt]
  exact beBytes_lt_beBytes_iff (UInt64.toNat_lt a) (UInt64.toNat_lt b)

theorem beBytes_toNat_le_iff (a b : UInt64) : beBytes 8 a.toNat ≤ beBytes 8 b.toNat ↔ a ≤ b := by
  rw [UInt64.le_iff_toNat_le]
  exact beBytes_le_beBytes_iff (UInt64.toNat_lt a) (UInt64.toNat_lt b)

theorem beBytes_toNat_inj (a b : UInt64) : beBytes 8 a.toNat = beBytes 8 b.toNat ↔ a = b := by
  rw [le_antisymm_iff, beBytes_toNat_le_iff, beBytes_toNat_le_iff, UInt64.le_antisymm_iff]

theorem serOrdered_uint64 : SerOrdered UInt64 :=
  ⟨fun a b => beBytes_toNat_lt_iff a b, fun a b => beBytes_toNat_le_iff a b⟩

theorem fixedWidth_uint64 : FixedWidth UInt64 := fun a b => by
  simp [beFixIntSer, BeFixIntSer.ser]

/-- A table holding the key `u64::MAX`. -/
def maxKeyTable : DBMap UInt64 Unit := ⟨[(18446744073709551615, ())], List.pairwise_singleton _ _⟩

theorem safeRangeIter_excluded_max_maxKeyTable :
    isMax (beFixIntSer (18446744073709551615 : UInt64)) = true ∧ ((18446744073709551615 : UInt64), ()) ∈ maxKeyTable.entries ∧
      ((18446744073709551615 : UInt64), ()) ∈ maxKeyTable.safeRangeIter (.excluded 18446744073709551615) .unbounded ∧
      ¬ (Bound.excluded (18446744073709551615 : UInt64)).startContains 18446744073709551615 :=
  have hmax : isMax (beFixIntSer (18446744073709551615 : UInt64)) = true := by decide
  have hk : ((18446744073709551615 : UInt64), ()) ∈ maxKeyTable.entries := List.mem_singleton_self _
  ⟨hmax, hk, safeRangeIter_excluded_max serOrdered_uint64 maxKeyTable hmax hk⟩

theorem mem_safeRangeIter_maxKeyTable :
    (∀ s : UInt64, (Bound.included 0 : Bound UInt64) = .excluded s → isMax (beFixIntSer s) = false) ∧
      (((18446744073709551615 : UInt64), ()) ∈ maxKeyTable.safeRangeIter (.included 0) (.included 18446744073709551615) ↔
        ((18446744073709551615 : UInt64), ()) ∈ maxKeyTable.entries ∧
          (Bound.included (0 : UInt64)).startContains 18446744073709551615 ∧
          (Bound.included (18446744073709551615 : UInt64)).endContains 18446744073709551615) :=
  have hstart : ∀ s : UInt64, (Bound.included 0 : Bound UInt64) = .excluded s → isMax (beFixIntSer s) = false :=
    fun _ h => by cases h
  ⟨hstart, mem_safeRangeIter serOrdered_uint64 fixedWidth_uint64 maxKeyTable hstart (.included 18446744073709551615) _⟩

end Iota.Storage
