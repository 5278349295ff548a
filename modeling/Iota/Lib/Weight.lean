import Mathlib

/-! Weighted finite sets.  The two facts every stake-threshold argument rests
on: two heavy sets meet in a heavy set, and a running tally that stops as soon
as it reaches a threshold reports exactly whether the whole set reaches it. -/

namespace Iota.Lib.Weight

variable {α : Type*} (w : α → ℕ)

def weight (s : Finset α) : ℕ := ∑ a ∈ s, w a

@[simp] theorem weight_empty : weight w (∅ : Finset α) = 0 := by simp [weight]

theorem weight_insert_of_not_mem [DecidableEq α] {a : α} {s : Finset α} (h : a ∉ s) :
    weight w (insert a s) = w a + weight w s := Finset.sum_insert h

theorem weight_mono {s t : Finset α} (h : s ⊆ t) : weight w s ≤ weight w t :=
  Finset.sum_le_sum_of_subset h

theorem weight_union_add_inter [DecidableEq α] (s t : Finset α) :
    weight w (s ∪ t) + weight w (s ∩ t) = weight w s + weight w t :=
  Finset.sum_union_inter

theorem weight_toFinset_le_sum [DecidableEq α] (l : List α) :
    weight w l.toFinset ≤ (l.map w).sum := by
  induction l with
  | nil => simp
  | cons a l ih =>
    rw [List.toFinset_cons, List.map_cons, List.sum_cons]
    by_cases ha : a ∈ l.toFinset
    · rw [Finset.insert_eq_of_mem ha]
      omega
    · rw [weight_insert_of_not_mem w ha]
      omega

theorem exists_mem_inter_not_mem [DecidableEq α] {s t b : Finset α} {q total : ℕ}
    (hst : weight w (s ∪ t) ≤ total) (hs : q ≤ weight w s) (ht : q ≤ weight w t)
    (hb : total + weight w b < 2 * q) : ∃ a ∈ s ∩ t, a ∉ b := by
  have hinter := weight_union_add_inter w s t
  have hnot : ¬ s ∩ t ⊆ b := by
    intro hsub
    have := weight_mono w hsub
    omega
  exact Finset.not_subset.mp hnot

theorem inter_nonempty_of_weight [DecidableEq α] {s t : Finset α} {q total : ℕ}
    (hst : weight w (s ∪ t) ≤ total) (hs : q ≤ weight w s) (ht : q ≤ weight w t)
    (hq : total < 2 * q) : (s ∩ t).Nonempty := by
  obtain ⟨a, ha, -⟩ := exists_mem_inter_not_mem w (b := ∅) hst hs ht (by simpa using hq)
  exact ⟨a, ha⟩

/-- Insert the elements of a list one at a time, answering `true` as soon as the
weight of the set reaches `q`. -/
def reachesWhileAdding [DecidableEq α] (q : ℕ) (s : Finset α) : List α → Bool
  | [] => false
  | a :: l => if q ≤ weight w (insert a s) then true else reachesWhileAdding q (insert a s) l

theorem reachesWhileAdding_iff [DecidableEq α] {q : ℕ} {s : Finset α} (l : List α) (hs : weight w s < q) :
    reachesWhileAdding w q s l = true ↔ q ≤ weight w (s ∪ l.toFinset) := by
  induction l generalizing s with
  | nil => simpa [reachesWhileAdding] using hs
  | cons a l ih =>
    have hunion : s ∪ (a :: l).toFinset = insert a s ∪ l.toFinset := by
      ext x; simp
    rw [reachesWhileAdding, hunion]
    by_cases ha : q ≤ weight w (insert a s)
    · simp only [ha, if_true, true_iff]
      exact le_trans ha (weight_mono w Finset.subset_union_left)
    · simp only [ha, if_false]
      exact ih (by omega)

end Iota.Lib.Weight
