import Mathlib

/-! Lists whose keys run through consecutive numbers, as commits do through their
indices: a range scan over such a list is a slice of it, found by position. -/

namespace Iota.Lib

variable {α : Type*} (f : α → ℕ)

/-- The keys of the list are `a, a + 1, …`. -/
def Consecutive (a : ℕ) (l : List α) : Prop := l.map f = List.range' a l.length

variable {f}

theorem consecutive_cons {a : ℕ} {x : α} {l : List α} :
    Consecutive f a (x :: l) ↔ f x = a ∧ Consecutive f (a + 1) l := by
  simp [Consecutive, List.range'_succ]

theorem Consecutive.append_singleton {a : ℕ} {l : List α} {x : α} (h : Consecutive f a l)
    (hx : f x = a + l.length) : Consecutive f a (l ++ [x]) := by
  rw [Consecutive, List.map_append, h, List.length_append, List.length_singleton, List.range'_1_concat]
  simp [hx]

theorem Consecutive.of_append_right {a : ℕ} {l l' : List α} (h : Consecutive f a (l ++ l')) :
    Consecutive f (a + l.length) l' := by
  rw [Consecutive, List.map_append, List.length_append, ← List.range'_append] at h
  have := (List.append_inj h (by simp)).2
  rwa [Nat.one_mul] at this

theorem Consecutive.drop {a : ℕ} {l : List α} (h : Consecutive f a l) (k : ℕ) (hk : k ≤ l.length) :
    Consecutive f (a + k) (l.drop k) := by
  rw [← List.take_append_drop k l] at h
  have := h.of_append_right
  rwa [List.length_take_of_le hk] at this

theorem Consecutive.mem_key_lt {a : ℕ} {l : List α} (h : Consecutive f a l) {x : α} (hx : x ∈ l) :
    a ≤ f x ∧ f x < a + l.length := by
  have hmem : f x ∈ l.map f := List.mem_map_of_mem hx
  rw [h, List.mem_range'] at hmem
  obtain ⟨i, hi, hfx⟩ := hmem
  omega

theorem Consecutive.filter_le {a : ℕ} {l : List α} (h : Consecutive f a l) (b : ℕ) :
    (l.filter fun x => decide (b ≤ f x)) = l.drop (b - a) := by
  induction l generalizing a with
  | nil => simp
  | cons x l ih =>
    obtain ⟨hx, hl⟩ := Iff.mp consecutive_cons h
    by_cases hb : b ≤ a
    · rw [List.filter_cons_of_pos (by simp [hx, hb]), ih hl, Nat.sub_eq_zero_of_le hb,
        Nat.sub_eq_zero_of_le (by omega : b ≤ a + 1)]
      rfl
    · rw [List.filter_cons_of_neg (by simp [hx]; omega), ih hl, (by omega : b - a = b - (a + 1) + 1)]
      rfl

theorem Consecutive.filter_eq {a : ℕ} {l : List α} (h : Consecutive f a l) {b : ℕ} (hb : a ≤ b) :
    (l.filter fun x => decide (f x = b)) = (l[b - a]?).toList := by
  induction l generalizing a with
  | nil => simp
  | cons x l ih =>
    obtain ⟨hx, hl⟩ := Iff.mp consecutive_cons h
    rcases Nat.eq_or_lt_of_le hb with rfl | hlt
    · -- the head is the element, and the keys after it are larger
      have hrest : (l.filter fun y => decide (f y = a)) = [] := by
        rw [List.filter_eq_nil_iff]
        intro y hy
        have := hl.mem_key_lt hy
        simp only [decide_eq_true_eq]
        omega
      rw [List.filter_cons_of_pos (by simp [hx]), hrest, Nat.sub_self]
      rfl
    · rw [List.filter_cons_of_neg (by simp [hx]; omega), ih hl (by omega), (by omega : b - a = b - (a + 1) + 1)]
      rfl

theorem Consecutive.getLast?_map {a : ℕ} {l : List α} (h : Consecutive f a l) :
    l.getLast?.map f = (List.range' a l.length).getLast? := by
  rw [← List.getLast?_map, h]

end Iota.Lib
