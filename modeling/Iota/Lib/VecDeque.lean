import Mathlib

/-! The ring buffer of Rust's `VecDeque` (the standard library of Rust 1.86): `len`
elements in the `cap` physical slots of a buffer, starting at the slot `head` and
wrapping around its end.  `push_front` grows a full buffer as `RawVec::grow_one`
does and then moves one of the two runs of a wrapped deque so that it stays in order
(`handle_capacity_increase`); `as_slices` returns the run from `head` to the end of
the buffer and the run that wrapped to its start.  A slot is `none` until written.

The deque's contents are `view`, read from `head` on; `push_front` puts its element
in front of it, and the two slices of `as_slices` together are the whole of it. -/

namespace Iota.Lib

structure VecDeque (α : Type*) where
  buf : ℕ → Option α
  cap : ℕ
  head : ℕ
  len : ℕ

namespace VecDeque

variable {α : Type*}

def new : VecDeque α := ⟨fun _ => none, 0, 0, 0⟩

/-- `wrap_index`: an index below twice the capacity, brought under it. -/
def wrapIndex (logical cap : ℕ) : ℕ := if cap ≤ logical then logical - cap else logical

/-- `to_physical_idx`: the slot of the element at `idx`. -/
def toPhysicalIdx (d : VecDeque α) (idx : ℕ) : ℕ := wrapIndex (d.head + idx) d.cap

/-- `wrap_sub(idx, 1)`: `idx.wrapping_sub(1).wrapping_add(cap)`, brought under the
capacity, which is not zero where it is used. -/
def wrapSubOne (d : VecDeque α) (idx : ℕ) : ℕ := wrapIndex (idx + d.cap - 1) d.cap

/-- `min_non_zero_cap` of `RawVec`, by the size of an element in bytes. -/
def minNonZeroCap (elemSize : ℕ) : ℕ := if elemSize = 1 then 8 else if elemSize ≤ 1024 then 4 else 1

/-- The capacity `grow_amortized(cap, 1)` gives. -/
def grownCap (elemSize cap : ℕ) : ℕ := max (minNonZeroCap elemSize) (max (cap * 2) (cap + 1))

/-- `ptr::copy(src, dst, count)` within the buffer; the copy reads the buffer as it
was, so overlapping runs are moved as `memmove` moves them. -/
def copy (buf : ℕ → Option α) (src dst count : ℕ) : ℕ → Option α :=
  fun i => if dst ≤ i ∧ i < dst + count then buf (src + (i - dst)) else buf i

/-- `handle_capacity_increase(old_capacity)`, the buffer having grown to `d.cap`:
a deque that did not wrap stays (A); otherwise the run that wrapped to the start is
moved after the old end when it is the shorter and fits (B), else the run from
`head` is moved to the new end (C). -/
def handleCapacityIncrease (d : VecDeque α) (oldCap : ℕ) : VecDeque α :=
  if d.head ≤ oldCap - d.len then d
  else
    let headLen := oldCap - d.head
    let tailLen := d.len - headLen
    if tailLen < headLen ∧ tailLen ≤ d.cap - oldCap then { d with buf := copy d.buf 0 oldCap tailLen }
    else
      let newHead := d.cap - headLen
      { d with buf := copy d.buf d.head newHead headLen, head := newHead }

def grow (elemSize : ℕ) (d : VecDeque α) : VecDeque α :=
  handleCapacityIncrease { d with cap := grownCap elemSize d.cap } d.cap

/-- The second half of `push_front`, once there is room: the element goes to the
slot before `head`. -/
def writeFront (d : VecDeque α) (value : α) : VecDeque α :=
  let head := d.wrapSubOne d.head
  { d with head, len := d.len + 1, buf := fun i => if i = head then some value else d.buf i }

def pushFront (elemSize : ℕ) (d : VecDeque α) (value : α) : VecDeque α :=
  (if d.len = d.cap then grow elemSize d else d).writeFront value

/-- The elements in order, as the deque's iterator yields them. -/
def view (d : VecDeque α) : List (Option α) := (List.range d.len).map fun i => d.buf (d.toPhysicalIdx i)

/-- The slots `start..stop` of the buffer. -/
def slots (d : VecDeque α) (start stop : ℕ) : List (Option α) := (List.range' start (stop - start)).map d.buf

/-- `as_slices`, through `slice_ranges(.., len)`. -/
def asSlices (d : VecDeque α) : List (Option α) × List (Option α) :=
  if d.len = 0 then ([], [])
  else
    let wrappedStart := d.toPhysicalIdx 0
    let headLen := d.cap - wrappedStart
    if d.len ≤ headLen then (d.slots wrappedStart (wrappedStart + d.len), [])
    else (d.slots wrappedStart d.cap, d.slots 0 (d.len - headLen))

/-- The elements a deque holds: all its slots are below the capacity. -/
structure WellFormed (d : VecDeque α) : Prop where
  len_le : d.len ≤ d.cap
  head_lt : d.head = 0 ∨ d.head < d.cap

theorem wellFormed_new : (new : VecDeque α).WellFormed := ⟨le_rfl, .inl rfl⟩

/-! ### Growing keeps the elements in order -/

theorem wrapIndex_of_lt {logical cap : ℕ} (h : logical < cap) : wrapIndex logical cap = logical :=
  if_neg (not_le.mpr h)

theorem wrapIndex_of_le {logical cap : ℕ} (h : cap ≤ logical) : wrapIndex logical cap = logical - cap :=
  if_pos h

theorem view_congr {d d' : VecDeque α} (hlen : d'.len = d.len)
    (h : ∀ i < d.len, d'.buf (d'.toPhysicalIdx i) = d.buf (d.toPhysicalIdx i)) : d'.view = d.view := by
  rw [view, view, hlen]
  exact List.map_congr_left fun i hi => h i (List.mem_range.mp hi)

theorem grownCap_gt (elemSize cap : ℕ) : cap < grownCap elemSize cap := by
  unfold grownCap
  omega

section Grow

variable {d : VecDeque α} (hfull : d.len = d.cap) (elemSize : ℕ)
include hfull

theorem view_grow_contiguous (hA : d.head ≤ d.cap - d.len) :
    ({ d with cap := grownCap elemSize d.cap } : VecDeque α).view = d.view := by
  have hcap := grownCap_gt elemSize d.cap
  refine view_congr rfl fun i hi => ?_
  simp only [toPhysicalIdx]
  rw [wrapIndex_of_lt (show d.head + i < grownCap elemSize d.cap by omega),
    wrapIndex_of_lt (show d.head + i < d.cap by omega)]

theorem view_grow_copyTail (hhead : d.head < d.cap)
    (hB : d.len - (d.cap - d.head) ≤ grownCap elemSize d.cap - d.cap) :
    ({ d with cap := grownCap elemSize d.cap, buf := copy d.buf 0 d.cap (d.len - (d.cap - d.head)) } :
      VecDeque α).view = d.view := by
  have hcap := grownCap_gt elemSize d.cap
  refine view_congr rfl fun i hi => ?_
  simp only [toPhysicalIdx]
  rw [wrapIndex_of_lt (show d.head + i < grownCap elemSize d.cap by omega)]
  unfold copy
  by_cases hwrap : d.head + i < d.cap
  · rw [wrapIndex_of_lt hwrap, if_neg (by omega)]
  · rw [wrapIndex_of_le (show d.cap ≤ d.head + i by omega), if_pos (by omega)]
    congr 1
    omega

theorem view_grow_moveHead (hhead : d.head < d.cap) :
    (⟨copy d.buf d.head (grownCap elemSize d.cap - (d.cap - d.head)) (d.cap - d.head), grownCap elemSize d.cap,
      grownCap elemSize d.cap - (d.cap - d.head), d.len⟩ : VecDeque α).view = d.view := by
  have hcap := grownCap_gt elemSize d.cap
  refine view_congr rfl fun i hi => ?_
  simp only [toPhysicalIdx]
  by_cases hwrap : d.head + i < d.cap
  · -- the element was in the run from `head`, which moved
    rw [wrapIndex_of_lt (show grownCap elemSize d.cap - (d.cap - d.head) + i < grownCap elemSize d.cap by omega),
      wrapIndex_of_lt hwrap]
    unfold copy
    rw [if_pos (by omega)]
    congr 1
    omega
  · -- the element was in the run at the start, which stays
    rw [wrapIndex_of_le (show grownCap elemSize d.cap ≤ grownCap elemSize d.cap - (d.cap - d.head) + i by omega),
      wrapIndex_of_le (show d.cap ≤ d.head + i by omega)]
    unfold copy
    rw [if_neg (by omega)]
    congr 1
    omega

theorem view_grow (hd : d.WellFormed) : (d.grow elemSize).view = d.view ∧ (d.grow elemSize).WellFormed ∧
    (d.grow elemSize).len < (d.grow elemSize).cap := by
  have hcap := grownCap_gt elemSize d.cap
  have hhead := hd.head_lt
  unfold grow handleCapacityIncrease
  dsimp only
  by_cases hA : d.head ≤ d.cap - d.len
  · rw [if_pos hA]
    refine ⟨view_grow_contiguous hfull elemSize hA, ⟨?_, .inr ?_⟩, ?_⟩ <;> dsimp only <;> omega
  rw [if_neg hA]
  have hlt : d.head < d.cap := by omega
  by_cases hB : d.len - (d.cap - d.head) < d.cap - d.head ∧ d.len - (d.cap - d.head) ≤ grownCap elemSize d.cap - d.cap
  · rw [if_pos hB]
    refine ⟨view_grow_copyTail hfull elemSize hlt hB.2, ⟨?_, .inr ?_⟩, ?_⟩ <;> dsimp only <;> omega
  · rw [if_neg hB]
    refine ⟨view_grow_moveHead hfull elemSize hlt, ⟨?_, .inr ?_⟩, ?_⟩ <;> dsimp only <;> omega

end Grow

/-! ### `push_front` -/

section WriteFront

variable {d : VecDeque α} (hd : d.WellFormed) (hroom : d.len < d.cap)
include hd hroom

theorem wrapSubOne_head : d.wrapSubOne d.head = if d.head = 0 then d.cap - 1 else d.head - 1 := by
  have hhead := hd.head_lt
  unfold wrapSubOne
  split_ifs with hzero
  · rw [hzero, Nat.zero_add, wrapIndex_of_lt (show d.cap - 1 < d.cap by omega)]
  · rw [wrapIndex_of_le (show d.cap ≤ d.head + d.cap - 1 by omega)]
    omega

theorem wrapSubOne_lt : d.wrapSubOne d.head < d.cap := by
  have hhead := hd.head_lt
  rw [wrapSubOne_head hd hroom]
  split_ifs <;> omega

theorem wrapIndex_wrapSubOne_succ {i : ℕ} (hi : i < d.len) :
    wrapIndex (d.wrapSubOne d.head + (i + 1)) d.cap = d.toPhysicalIdx i ∧
      d.toPhysicalIdx i ≠ d.wrapSubOne d.head := by
  have hhead := hd.head_lt
  rw [wrapSubOne_head hd hroom, toPhysicalIdx]
  split_ifs with hzero
  · rw [hzero, wrapIndex_of_le (show d.cap ≤ d.cap - 1 + (i + 1) by omega),
      wrapIndex_of_lt (show 0 + i < d.cap by omega)]
    omega
  · by_cases hwrap : d.head + i < d.cap
    · rw [wrapIndex_of_lt (show d.head - 1 + (i + 1) < d.cap by omega), wrapIndex_of_lt hwrap]
      omega
    · rw [wrapIndex_of_le (show d.cap ≤ d.head - 1 + (i + 1) by omega),
        wrapIndex_of_le (show d.cap ≤ d.head + i by omega)]
      omega

theorem view_writeFront (value : α) : (d.writeFront value).view = some value :: d.view := by
  have hlt := wrapSubOne_lt hd hroom
  simp only [view, writeFront, List.range_succ_eq_map, List.map_cons, List.map_map]
  congr 1
  · simp only [toPhysicalIdx, Nat.add_zero, wrapIndex_of_lt hlt, if_true]
  · refine List.map_congr_left fun i hi => ?_
    obtain ⟨hphys, hne⟩ := wrapIndex_wrapSubOne_succ hd hroom (List.mem_range.mp hi)
    simp only [Function.comp_apply, toPhysicalIdx, Nat.succ_eq_add_one] at hphys hne ⊢
    -- the other elements keep their slots, which the new element does not take
    simp only [hphys]
    rw [if_neg hne]

theorem WellFormed.writeFront (value : α) : (d.writeFront value).WellFormed :=
  ⟨by simp only [VecDeque.writeFront]; omega, .inr (wrapSubOne_lt hd hroom)⟩

end WriteFront

theorem view_pushFront {d : VecDeque α} (hd : d.WellFormed) (elemSize : ℕ) (value : α) :
    (d.pushFront elemSize value).view = some value :: d.view ∧ (d.pushFront elemSize value).WellFormed := by
  unfold pushFront
  split_ifs with hfull
  · obtain ⟨hview, hwf, hroom⟩ := view_grow hfull elemSize hd
    rw [view_writeFront hwf hroom, hview]
    exact ⟨rfl, hwf.writeFront hroom value⟩
  · have hroom : d.len < d.cap := lt_of_le_of_ne hd.len_le hfull
    exact ⟨view_writeFront hd hroom value, hd.writeFront hroom value⟩

/-- Elements pushed to the front one after another. -/
def pushFronts (elemSize : ℕ) (d : VecDeque α) (values : List α) : VecDeque α :=
  values.foldl (pushFront elemSize) d

theorem view_pushFronts (elemSize : ℕ) (values : List α) :
    ∀ {d : VecDeque α}, d.WellFormed →
      (d.pushFronts elemSize values).view = values.reverse.map some ++ d.view ∧
        (d.pushFronts elemSize values).WellFormed := by
  induction values with
  | nil => intro d hd; exact ⟨rfl, hd⟩
  | cons value values ih =>
    intro d hd
    obtain ⟨hview, hwf⟩ := view_pushFront hd elemSize value
    obtain ⟨ihview, ihwf⟩ := ih hwf
    rw [pushFronts, List.foldl_cons, ← pushFronts, ihview, hview]
    exact ⟨by simp, ihwf⟩

/-! ### Where the elements go does not depend on them -/

/-- The capacity, the head and the length: what `push_front` does to them reads no element. -/
def shape (d : VecDeque α) : ℕ × ℕ × ℕ := (d.cap, d.head, d.len)

section Shape

variable {β : Type*} {d : VecDeque α} {d' : VecDeque β}

theorem shape_grow (h : d.shape = d'.shape) (elemSize : ℕ) : (d.grow elemSize).shape = (d'.grow elemSize).shape := by
  simp only [shape, Prod.mk.injEq] at h
  obtain ⟨hcap, hhead, hlen⟩ := h
  unfold grow handleCapacityIncrease
  dsimp only
  rw [hcap, hhead, hlen]
  -- every branch computes the new head from the shape alone
  split_ifs <;> rfl

theorem shape_writeFront (h : d.shape = d'.shape) (v : α) (v' : β) :
    (d.writeFront v).shape = (d'.writeFront v').shape := by
  simp only [shape, Prod.mk.injEq] at h
  obtain ⟨hcap, hhead, hlen⟩ := h
  simp [shape, writeFront, wrapSubOne, hcap, hhead, hlen]

theorem shape_pushFront (h : d.shape = d'.shape) (elemSize : ℕ) (v : α) (v' : β) :
    (d.pushFront elemSize v).shape = (d'.pushFront elemSize v').shape := by
  have hfull : d.len = d.cap ↔ d'.len = d'.cap := by
    simp only [shape, Prod.mk.injEq] at h
    rw [h.1, h.2.2]
  unfold pushFront
  by_cases hd : d.len = d.cap
  · rw [if_pos hd, if_pos (hfull.mp hd)]
    exact shape_writeFront (shape_grow h elemSize) v v'
  · rw [if_neg hd, if_neg (mt hfull.mpr hd)]
    exact shape_writeFront h v v'

end Shape

theorem shape_pushFronts {β : Type*} (elemSize : ℕ) :
    ∀ (vs : List α) (ws : List β) {d : VecDeque α} {d' : VecDeque β}, vs.length = ws.length → d.shape = d'.shape →
      (d.pushFronts elemSize vs).shape = (d'.pushFronts elemSize ws).shape
  | [], [], _, _, _, h => h
  | v :: vs, w :: ws, d, d', hlen, h => by
    show ((d.pushFront elemSize v).pushFronts elemSize vs).shape = ((d'.pushFront elemSize w).pushFronts elemSize ws).shape
    exact shape_pushFronts elemSize vs ws (by simpa using hlen) (shape_pushFront h elemSize v w)

/-! ### The two slices -/

theorem toPhysicalIdx_zero {d : VecDeque α} (hd : d.WellFormed) : d.toPhysicalIdx 0 = d.head := by
  have hhead := hd.head_lt
  rw [toPhysicalIdx, Nat.add_zero, wrapIndex]
  split_ifs <;> omega

theorem asSlices_append {d : VecDeque α} (hd : d.WellFormed) : (asSlices d).1 ++ (asSlices d).2 = d.view := by
  have hlen := hd.len_le
  have hhead := hd.head_lt
  unfold asSlices
  by_cases hzero : d.len = 0
  · simp [view, hzero]
  rw [if_neg hzero, toPhysicalIdx_zero hd]
  by_cases hcontig : d.len ≤ d.cap - d.head
  · -- no wrap: the elements sit in the slots from `head` on
    rw [if_pos hcontig]
    simp only [List.append_nil, slots, view, Nat.add_sub_cancel_left, List.range'_eq_map_range, List.map_map]
    refine List.map_congr_left fun i hi => ?_
    have hi := List.mem_range.mp hi
    simp only [Function.comp_apply, toPhysicalIdx, wrapIndex]
    split_ifs <;> first | omega | rfl
  · -- a wrap: the slots from `head` to the end, then those from the start
    rw [if_neg hcontig]
    have hsplit : d.len = (d.cap - d.head) + (d.len - (d.cap - d.head)) := by omega
    simp only [slots, view, List.range'_eq_map_range, List.map_map, Nat.sub_zero]
    rw [hsplit, List.range_add, List.map_append, List.map_map, ← hsplit]
    congr 1
    · refine List.map_congr_left fun i hi => ?_
      have hi := List.mem_range.mp hi
      simp only [Function.comp_apply, toPhysicalIdx, wrapIndex]
      split_ifs <;> first | omega | rfl
    · refine List.map_congr_left fun i hi => ?_
      have hi := List.mem_range.mp hi
      simp only [Function.comp_apply, toPhysicalIdx, wrapIndex]
      split_ifs <;> first | omega | (congr 1; omega)

theorem length_asSlices_fst {d : VecDeque α} (hd : d.WellFormed) :
    (asSlices d).1.length = min d.len (d.cap - d.head) := by
  unfold asSlices
  by_cases hzero : d.len = 0
  · simp [hzero]
  rw [if_neg hzero]
  dsimp only
  rw [toPhysicalIdx_zero hd]
  by_cases hcontig : d.len ≤ d.cap - d.head
  · rw [if_pos hcontig]
    simp [slots]
    omega
  · rw [if_neg hcontig]
    simp [slots]
    omega

end VecDeque

end Iota.Lib
