import Mathlib
import Iota.Core.CongestionTracker

/-! The free slots of an object as the times they cover. A list `remove`
expects has non-empty slots, each ending before the next starts; on such a
list the comparator `contains` is partitioned, the binary search finds the one
free slot holding a slot within it, and `remove` replaces that free slot by
what is left of it around the slot. -/

namespace Iota.Core.Congestion

open Iota.Lib

theorem insertIdx_of_length {α : Type} {l₁ : List α} {n : ℕ} (h : l₁.length = n) (l₂ : List α) (x : α) :
    (l₁ ++ l₂).insertIdx n x = l₁ ++ x :: l₂ := by
  subst h
  induction l₁ with
  | nil => simp
  | cons a l₁ ih => simp [List.insertIdx_succ_cons, ih]

namespace ExecutionSlot

/-- The times of a slot, from its start up to its end. -/
def Holds (slot : ExecutionSlot) (x : ℕ) : Prop := slot.startTime ≤ x ∧ x < slot.endTime

/-- `slot` lies in `free`. -/
def Within (slot free : ExecutionSlot) : Prop := free.startTime ≤ slot.startTime ∧ slot.endTime ≤ free.endTime

theorem contains_eq_eq_iff {free slot : ExecutionSlot} : free.contains slot = .eq ↔ slot.Within free := by
  unfold contains Within
  by_cases h₁ : free.endTime < slot.endTime
  · simp only [if_pos h₁, reduceCtorEq, false_iff]
    omega
  · by_cases h₂ : free.startTime > slot.startTime
    · simp only [if_neg h₁, if_pos h₂, reduceCtorEq, false_iff]
      omega
    · simp only [if_neg h₁, if_neg h₂, true_iff]
      omega

theorem contains_ne_lt_iff {free slot : ExecutionSlot} : free.contains slot ≠ .lt ↔ slot.endTime ≤ free.endTime := by
  unfold contains
  by_cases h₁ : free.endTime < slot.endTime
  · simp only [if_pos h₁, ne_eq, not_true_eq_false, false_iff]
    omega
  · by_cases h₂ : free.startTime > slot.startTime
    · simp only [if_neg h₁, if_pos h₂, ne_eq, reduceCtorEq, not_false_eq_true, true_iff]
      omega
    · simp only [if_neg h₁, if_neg h₂, ne_eq, reduceCtorEq, not_false_eq_true, true_iff]
      omega

theorem contains_eq_gt_iff {free slot : ExecutionSlot} :
    free.contains slot = .gt ↔ slot.endTime ≤ free.endTime ∧ slot.startTime < free.startTime := by
  unfold contains
  by_cases h₁ : free.endTime < slot.endTime
  · simp only [if_pos h₁, reduceCtorEq, false_iff]
    omega
  · by_cases h₂ : free.startTime > slot.startTime
    · simp only [if_neg h₁, if_pos h₂, true_iff]
      omega
    · simp only [if_neg h₁, if_neg h₂, reduceCtorEq, false_iff]
      omega

theorem intersection_eq_some {slot other inter : ExecutionSlot} (h : slot.intersection other = some inter) :
    inter.Within slot ∧ inter.Within other ∧ inter.startTime < inter.endTime := by
  unfold intersection at h
  dsimp only at h
  split_ifs at h with hlt
  obtain rfl := Option.some_inj.mp h
  unfold Within new
  dsimp only
  omega

theorem within_intersection {slot free other : ExecutionSlot} (hslot : slot.startTime < slot.endTime)
    (hfree : slot.Within free) (hother : slot.Within other) :
    ∃ inter, free.intersection other = some inter ∧ slot.Within inter := by
  unfold Within at hfree hother
  unfold intersection
  rw [if_pos (by omega)]
  refine ⟨_, rfl, ?_⟩
  unfold Within new
  dsimp only
  omega

theorem Within.trans {a b c : ExecutionSlot} (h₁ : a.Within b) (h₂ : b.Within c) : a.Within c :=
  ⟨h₂.1.trans h₁.1, h₁.2.trans h₂.2⟩

theorem Within.holds {slot free : ExecutionSlot} (h : slot.Within free) {x : ℕ} (hx : slot.Holds x) : free.Holds x :=
  ⟨h.1.trans hx.1, Nat.lt_of_lt_of_le hx.2 h.2⟩

end ExecutionSlot

open ExecutionSlot

/-- Free slots as `remove` expects them. -/
structure FreeList (slots : List ExecutionSlot) : Prop where
  nonempty : ∀ s ∈ slots, s.startTime < s.endTime
  sorted : slots.Pairwise fun a b => a.endTime ≤ b.startTime

/-- The times some slot of a list holds. -/
def Covers (slots : List ExecutionSlot) (x : ℕ) : Prop := ∃ s ∈ slots, s.Holds x

/-- What is left of a free slot around an occupied slot within it. -/
def pieces (free slot : ExecutionSlot) : List ExecutionSlot :=
  (if slot.startTime > free.startTime then [ExecutionSlot.new free.startTime slot.startTime] else []) ++
    (if slot.endTime < free.endTime then [ExecutionSlot.new slot.endTime free.endTime] else [])

section Pieces

variable {free slot : ExecutionSlot}

theorem mem_pieces {s : ExecutionSlot} :
    s ∈ pieces free slot ↔
      (free.startTime < slot.startTime ∧ s = ⟨free.startTime, slot.startTime⟩) ∨
        (slot.endTime < free.endTime ∧ s = ⟨slot.endTime, free.endTime⟩) := by
  unfold pieces ExecutionSlot.new
  by_cases hA : free.startTime < slot.startTime <;> by_cases hB : slot.endTime < free.endTime <;>
    simp [hA, hB]

theorem holds_pieces_iff (hslot : slot.startTime < slot.endTime) (h : slot.Within free) {x : ℕ} :
    (∃ s ∈ pieces free slot, s.Holds x) ↔ free.Holds x ∧ ¬slot.Holds x := by
  unfold Within Holds at *
  constructor
  · rintro ⟨s, hs, hsx⟩
    rcases Iff.mp mem_pieces hs with ⟨-, rfl⟩ | ⟨-, rfl⟩ <;> dsimp only at hsx <;> omega
  · rintro ⟨hfree, hnot⟩
    by_cases hx : x < slot.startTime
    · exact ⟨⟨free.startTime, slot.startTime⟩, Iff.mpr mem_pieces (.inl ⟨by omega, rfl⟩), hfree.1, hx⟩
    · exact ⟨⟨slot.endTime, free.endTime⟩, Iff.mpr mem_pieces (.inr ⟨by omega, rfl⟩), by dsimp only; omega, hfree.2⟩

theorem pieces_nonempty : ∀ s ∈ pieces free slot, s.startTime < s.endTime := by
  intro s hs
  rcases Iff.mp mem_pieces hs with ⟨h, rfl⟩ | ⟨h, rfl⟩
  exacts [h, h]

theorem pieces_within (hslot : slot.startTime < slot.endTime) (h : slot.Within free) : ∀ s ∈ pieces free slot, s.Within free := by
  intro s hs
  unfold Within at *
  rcases Iff.mp mem_pieces hs with ⟨-, rfl⟩ | ⟨-, rfl⟩ <;> dsimp only <;> omega

theorem pieces_sorted (hslot : slot.startTime < slot.endTime) :
    (pieces free slot).Pairwise fun a b => a.endTime ≤ b.startTime := by
  unfold pieces ExecutionSlot.new
  by_cases hA : free.startTime < slot.startTime <;> by_cases hB : slot.endTime < free.endTime <;>
    simp [hA, hB]
  -- both pieces: the lower one ends where the slot starts, the upper one starts where it ends
  omega

end Pieces

section Replace

variable {pre post : List ExecutionSlot} {free : ExecutionSlot}

theorem sorted_replace {mid : List ExecutionSlot}
    (h : (pre ++ free :: post).Pairwise fun a b => a.endTime ≤ b.startTime)
    (hmid : mid.Pairwise fun a b => a.endTime ≤ b.startTime) (hwithin : ∀ s ∈ mid, s.Within free) :
    (pre ++ mid ++ post).Pairwise fun a b => a.endTime ≤ b.startTime := by
  simp only [List.pairwise_append, List.pairwise_cons, List.mem_cons] at h ⊢
  obtain ⟨hpre, ⟨hfree, hpost⟩, hcross⟩ := h
  refine ⟨⟨hpre, hmid, fun a ha b hb => ?_⟩, hpost, fun a ha b hb => ?_⟩
  · exact (hcross a ha free (.inl rfl)).trans (hwithin b hb).1
  · rcases List.mem_append.mp ha with ha | ha
    · exact hcross a ha b (.inr hb)
    · exact (hwithin a ha).2.trans (hfree b hb)

theorem not_holds_of_ne (h : (pre ++ free :: post).Pairwise fun a b => a.endTime ≤ b.startTime) {s : ExecutionSlot} (hs : s ∈ pre ∨ s ∈ post)
    {x : ℕ} (hx : free.Holds x) : ¬s.Holds x := by
  simp only [List.pairwise_append, List.pairwise_cons, List.mem_cons] at h
  obtain ⟨-, ⟨hfree, -⟩, hcross⟩ := h
  unfold Holds at *
  rcases hs with hs | hs
  · have := hcross s hs free (.inl rfl)
    omega
  · have := hfree s hs
    omega

theorem FreeList.replace (h : FreeList (pre ++ free :: post)) {slot : ExecutionSlot}
    (hslot : slot.startTime < slot.endTime) (hwithin : slot.Within free) :
    FreeList (pre ++ pieces free slot ++ post) where
  nonempty := by
    intro s hs
    simp only [List.mem_append] at hs
    rcases hs with (hs | hs) | hs
    · exact h.nonempty s (by simp [hs])
    · exact pieces_nonempty s hs
    · exact h.nonempty s (by simp [hs])
  sorted := sorted_replace h.sorted (pieces_sorted hslot) (pieces_within hslot hwithin)

theorem FreeList.covers_replace (h : FreeList (pre ++ free :: post)) {slot : ExecutionSlot}
    (hslot : slot.startTime < slot.endTime) (hwithin : slot.Within free) (x : ℕ) :
    Covers (pre ++ pieces free slot ++ post) x ↔ Covers (pre ++ free :: post) x ∧ ¬slot.Holds x := by
  have hother : ∀ s, s ∈ pre ∨ s ∈ post → s.Holds x → ¬slot.Holds x := fun s hs hsx hslotx =>
    not_holds_of_ne h.sorted hs (hwithin.holds hslotx) hsx
  have hpieces := holds_pieces_iff hslot hwithin (x := x)
  unfold Covers
  simp only [List.mem_append, List.mem_cons]
  constructor
  · rintro ⟨s, (hs | hs) | hs, hsx⟩
    · exact ⟨⟨s, .inl hs, hsx⟩, hother s (.inl hs) hsx⟩
    · obtain ⟨hfree, hnot⟩ := hpieces.mp ⟨s, hs, hsx⟩
      exact ⟨⟨free, .inr (.inl rfl), hfree⟩, hnot⟩
    · exact ⟨⟨s, .inr (.inr hs), hsx⟩, hother s (.inr hs) hsx⟩
  · rintro ⟨⟨s, hs | rfl | hs, hsx⟩, hnot⟩
    · exact ⟨s, .inl (.inl hs), hsx⟩
    · obtain ⟨s', hs', hs'x⟩ := hpieces.mpr ⟨hsx, hnot⟩
      exact ⟨s', .inl (.inr hs'), hs'x⟩
    · exact ⟨s, .inr hs, hsx⟩

theorem getLast_replace {slot : ExecutionSlot} {E : ℕ}
    (hlast : ∀ last, (pre ++ free :: post).getLast? = some last → last.endTime = E) (hend : slot.endTime < E) :
    ∃ last, (pre ++ pieces free slot ++ post).getLast? = some last ∧ last.endTime = E := by
  cases hpost : post.getLast? with
  | some last =>
    have h₁ : (pre ++ free :: post).getLast? = some last := by
      rw [List.append_cons, List.getLast?_append, hpost]
      rfl
    refine ⟨last, ?_, hlast last h₁⟩
    rw [List.getLast?_append, hpost]
    rfl
  | none =>
    obtain rfl := List.getLast?_eq_none_iff.mp hpost
    have hfree : free.endTime = E := hlast free (by simp)
    have hupper : slot.endTime < free.endTime := by omega
    refine ⟨ExecutionSlot.new slot.endTime free.endTime, ?_, hfree⟩
    rw [List.append_nil, pieces, if_pos hupper, List.getLast?_append, List.getLast?_append]
    rfl

end Replace

/-! ### `remove` -/

section Remove

variable {self : ObjectExecutionSlots} {slot : ExecutionSlot}

theorem FreeList.partitioned (h : FreeList self.slots) (slot : ExecutionSlot) :
    Partitioned (·.contains slot) self.slots := by
  intro i j hi hj hij
  rcases Nat.eq_or_lt_of_le hij with rfl | hlt
  · exact ⟨id, id⟩
  have hsep := List.pairwise_iff_getElem.mp h.sorted i j hi hj hlt
  have hnei := h.nonempty _ (List.getElem_mem hi)
  have hnej := h.nonempty _ (List.getElem_mem hj)
  refine ⟨fun hc => Iff.mpr contains_ne_lt_iff ?_, fun hc => Iff.mpr contains_eq_gt_iff ?_⟩
  · have := Iff.mp contains_ne_lt_iff hc
    omega
  · have := Iff.mp contains_eq_gt_iff hc
    omega

theorem FreeList.eq_of_within (h : FreeList self.slots) (hslot : slot.startTime < slot.endTime) {i j : ℕ}
    (hi : i < self.slots.length) (hj : j < self.slots.length) (hwi : slot.Within self.slots[i])
    (hwj : slot.Within self.slots[j]) : i = j := by
  unfold Within at hwi hwj
  by_contra hne
  rcases Nat.lt_or_gt_of_ne hne with hlt | hlt
  · have := List.pairwise_iff_getElem.mp h.sorted i j hi hj hlt
    omega
  · have := List.pairwise_iff_getElem.mp h.sorted j i hj hi hlt
    omega

theorem FreeList.remove_eq (h : FreeList self.slots) (hslot : slot.startTime < slot.endTime) {i : ℕ}
    (hi : i < self.slots.length) (hwithin : slot.Within self.slots[i]) :
    self.remove slot = .ok ⟨self.slots.take i ++ pieces self.slots[i] slot ++ self.slots.drop (i + 1)⟩ := by
  obtain ⟨j, hj, hsearch, hjeq⟩ := binarySearchBy_of_eq (h.partitioned slot) hi (Iff.mpr contains_eq_eq_iff hwithin)
  obtain rfl := h.eq_of_within hslot hj hi (Iff.mp contains_eq_eq_iff hjeq) hwithin
  have hlen : (self.slots.take j).length = j := List.length_take_of_le (Nat.le_of_lt hj)
  simp only [ObjectExecutionSlots.remove, hsearch, List.getElem?_eq_getElem hj, except_pure_bind,
    List.eraseIdx_eq_take_drop_succ]
  unfold pieces
  split_ifs with hend hstart hstart
  · -- both pieces: the lower one goes in at the index, the upper one right after it
    dsimp only
    rw [insertIdx_of_length hlen, List.append_cons (self.slots.take j),
      insertIdx_of_length (by rw [List.length_append, hlen, List.length_singleton])]
    simp only [List.append_assoc, List.singleton_append]
    rfl
  · dsimp only
    rw [insertIdx_of_length hlen]
    simp only [List.nil_append, List.append_assoc, List.singleton_append]
    rfl
  · dsimp only
    rw [insertIdx_of_length hlen]
    simp only [List.append_nil, List.append_assoc, List.singleton_append]
    rfl
  · simp only [List.append_nil]
    rfl

theorem FreeList.remove_spec (h : FreeList self.slots) (hslot : slot.startTime < slot.endTime)
    {free : ExecutionSlot} (hfree : free ∈ self.slots) (hwithin : slot.Within free) :
    ∃ slots', self.remove slot = .ok slots' ∧ FreeList slots'.slots ∧
      (∀ x, Covers slots'.slots x ↔ Covers self.slots x ∧ ¬slot.Holds x) ∧
      ∀ E, slot.endTime < E → (∀ last, self.slots.getLast? = some last → last.endTime = E) →
        ∃ last, slots'.slots.getLast? = some last ∧ last.endTime = E := by
  obtain ⟨i, hi, rfl⟩ := List.getElem_of_mem hfree
  -- the free list cut at the free slot holding the slot
  have hsplit : self.slots = self.slots.take i ++ self.slots[i] :: self.slots.drop (i + 1) := by
    rw [← List.drop_eq_getElem_cons hi, List.take_append_drop]
  have h' : FreeList (self.slots.take i ++ self.slots[i] :: self.slots.drop (i + 1)) := by
    rw [← hsplit]
    exact h
  refine ⟨_, h.remove_eq hslot hi hwithin, h'.replace hslot hwithin, fun x => ?_, fun E hend hlast => ?_⟩
  · rw [h'.covers_replace hslot hwithin x, ← hsplit]
  · exact getLast_replace (by rwa [← hsplit]) hend

end Remove

end Iota.Core.Congestion
