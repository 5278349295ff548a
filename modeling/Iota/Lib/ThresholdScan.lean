import Mathlib

/-! A threshold scan: weighted keys are added up in list order, and the key of the entry
at which the running sum reaches a threshold is returned.  On a list sorted by key, that
key is the least key whose entries at or below it weigh the threshold; on a list sorted
the other way, read through the dual order, it is the greatest key whose entries at or
above it do. -/

namespace Iota.Lib

section Scan

variable {κ : Type*}

/-- Add up the weights from `total`, and return the key of the entry at which the sum
reaches `threshold`. -/
def thresholdScan (threshold : ℕ) : ℕ → List (κ × ℕ) → Option κ
  | _, [] => none
  | total, (key, weight) :: rest =>
    if threshold ≤ total + weight then some key else thresholdScan threshold (total + weight) rest

def totalWeight (l : List (κ × ℕ)) : ℕ := (l.map (·.2)).sum

@[simp] theorem totalWeight_nil : totalWeight ([] : List (κ × ℕ)) = 0 := rfl

@[simp] theorem totalWeight_cons (key : κ) (weight : ℕ) (l : List (κ × ℕ)) :
    totalWeight ((key, weight) :: l) = weight + totalWeight l := by
  simp [totalWeight]

theorem thresholdScan_map {κ' : Type*} (f : κ → κ') (threshold : ℕ) :
    ∀ (total : ℕ) (l : List (κ × ℕ)),
      thresholdScan threshold total (l.map fun e => (f e.1, e.2)) = (thresholdScan threshold total l).map f
  | _, [] => rfl
  | total, (key, weight) :: rest => by
    simp only [List.map_cons, thresholdScan]
    split_ifs
    · rfl
    · exact thresholdScan_map f threshold (total + weight) rest

theorem totalWeight_map {κ' : Type*} (f : κ → κ') (l : List (κ × ℕ)) :
    totalWeight (l.map fun e => (f e.1, e.2)) = totalWeight l := by
  simp [totalWeight, Function.comp_def]

variable [LinearOrder κ]

/-- The weight of the entries whose key is at most `k`. -/
def weightUpTo (l : List (κ × ℕ)) (k : κ) : ℕ := ((l.filter fun e => e.1 ≤ k).map (·.2)).sum

@[simp] theorem weightUpTo_nil (k : κ) : weightUpTo ([] : List (κ × ℕ)) k = 0 := rfl

theorem weightUpTo_cons (key : κ) (weight : ℕ) (l : List (κ × ℕ)) (k : κ) :
    weightUpTo ((key, weight) :: l) k = (if key ≤ k then weight else 0) + weightUpTo l k := by
  by_cases hkey : key ≤ k <;> simp [weightUpTo, hkey]

theorem weightUpTo_perm {l l' : List (κ × ℕ)} (h : l.Perm l') (k : κ) : weightUpTo l k = weightUpTo l' k :=
  ((h.filter _).map _).sum_eq

theorem weightUpTo_eq_zero {l : List (κ × ℕ)} {k : κ} (h : ∀ e ∈ l, k < e.1) : weightUpTo l k = 0 := by
  have hfilter : l.filter (fun e => e.1 ≤ k) = [] :=
    List.filter_eq_nil_iff.mpr fun e he hle => absurd (h e he) (not_lt.mpr (of_decide_eq_true hle))
  simp [weightUpTo, hfilter]

theorem thresholdScan_spec {threshold : ℕ} :
    ∀ (l : List (κ × ℕ)) (total : ℕ), l.Pairwise (fun a b => a.1 ≤ b.1) → total < threshold →
      threshold ≤ total + totalWeight l →
      ∃ k, thresholdScan threshold total l = some k ∧ threshold ≤ total + weightUpTo l k ∧
        ∀ k', k' < k → total + weightUpTo l k' < threshold
  | [], total, _, hbelow, hreach => by simp at hreach; omega
  | (key, weight) :: rest, total, hsorted, hbelow, hreach => by
    rw [List.pairwise_cons] at hsorted
    by_cases hstop : threshold ≤ total + weight
    · -- the sum reaches the threshold here, at the least key of the list
      refine ⟨key, by simp [thresholdScan, hstop], ?_, ?_⟩
      · rw [weightUpTo_cons, if_pos le_rfl]
        omega
      · intro k' hk'
        have hzero : weightUpTo rest k' = 0 := weightUpTo_eq_zero fun e he => lt_of_lt_of_le hk' (hsorted.1 e he)
        rw [weightUpTo_cons, if_neg (not_le.mpr hk'), hzero]
        omega
    · rw [totalWeight_cons] at hreach
      obtain ⟨k, hscan, hreached, hleast⟩ :=
        @thresholdScan_spec threshold rest (total + weight) hsorted.2 (by omega) (by omega)
      -- the key found is not below this entry's, or the sum would have stopped here
      have hkey : key ≤ k := by
        by_contra hlt
        have hzero : weightUpTo rest k = 0 :=
          weightUpTo_eq_zero fun e he => lt_of_lt_of_le (not_le.mp hlt) (hsorted.1 e he)
        omega
      refine ⟨k, by simp [thresholdScan, hstop, hscan], ?_, ?_⟩
      · rw [weightUpTo_cons, if_pos hkey]
        omega
      · intro k' hk'
        have := hleast k' hk'
        rw [weightUpTo_cons]
        split_ifs <;> omega

theorem thresholdScan_least {threshold : ℕ} {l : List (κ × ℕ)} (hsorted : l.Pairwise (fun a b => a.1 ≤ b.1))
    (hpos : 0 < threshold) (hreach : threshold ≤ totalWeight l) :
    ∃ k, thresholdScan threshold 0 l = some k ∧ threshold ≤ weightUpTo l k ∧
      ∀ k', threshold ≤ weightUpTo l k' → k ≤ k' := by
  obtain ⟨k, hscan, hreached, hleast⟩ := thresholdScan_spec l 0 hsorted hpos (by omega)
  refine ⟨k, hscan, by simpa using hreached, fun k' hk' => ?_⟩
  by_contra hlt
  have := hleast k' (not_le.mp hlt)
  omega

/-- The weight of the entries whose key is at least `k`. -/
def weightFrom (l : List (κ × ℕ)) (k : κ) : ℕ := ((l.filter fun e => k ≤ e.1).map (·.2)).sum

@[simp] theorem weightFrom_nil (k : κ) : weightFrom ([] : List (κ × ℕ)) k = 0 := rfl

theorem weightFrom_cons (key : κ) (weight : ℕ) (l : List (κ × ℕ)) (k : κ) :
    weightFrom ((key, weight) :: l) k = (if k ≤ key then weight else 0) + weightFrom l k := by
  by_cases hkey : k ≤ key <;> simp [weightFrom, hkey]

theorem weightFrom_perm {l l' : List (κ × ℕ)} (h : l.Perm l') (k : κ) : weightFrom l k = weightFrom l' k :=
  ((h.filter _).map _).sum_eq

theorem weightUpTo_add_weightFrom_le {k k' : κ} (hlt : k < k') :
    ∀ l : List (κ × ℕ), weightUpTo l k + weightFrom l k' ≤ totalWeight l
  | [] => le_rfl
  | (key, weight) :: l => by
    have ih := weightUpTo_add_weightFrom_le hlt l
    rw [weightUpTo_cons, weightFrom_cons, totalWeight_cons]
    by_cases hkey : key ≤ k
    · have hnot : ¬ k' ≤ key := not_le.mpr (lt_of_le_of_lt hkey hlt)
      rw [if_pos hkey, if_neg hnot]
      omega
    · rw [if_neg hkey]
      split_ifs <;> omega

theorem weightUpTo_map_toDual (l : List (κ × ℕ)) (k : κ) :
    weightUpTo (l.map fun e => (OrderDual.toDual e.1, e.2)) (OrderDual.toDual k) = weightFrom l k := by
  induction l with
  | nil => rfl
  | cons e l ih =>
    rw [List.map_cons, weightUpTo_cons, ih]
    by_cases hk : k ≤ e.1 <;> simp [hk, weightFrom]

theorem thresholdScan_greatest {threshold : ℕ} {l : List (κ × ℕ)} (hsorted : l.Pairwise (fun a b => b.1 ≤ a.1))
    (hpos : 0 < threshold) (hreach : threshold ≤ totalWeight l) :
    ∃ k, thresholdScan threshold 0 l = some k ∧ threshold ≤ weightFrom l k ∧
      ∀ k', threshold ≤ weightFrom l k' → k' ≤ k := by
  -- the same scan on the keys of the dual order, where the list is sorted by key
  have hdual : (l.map fun e => (OrderDual.toDual e.1, e.2)).Pairwise (fun a b => a.1 ≤ b.1) := by
    rw [List.pairwise_map]
    exact hsorted.imp fun h => OrderDual.toDual_le_toDual.mpr h
  obtain ⟨k, hscan, hreached, hleast⟩ :=
    thresholdScan_least hdual hpos (by rwa [totalWeight_map])
  rw [thresholdScan_map, Option.map_eq_some_iff] at hscan
  obtain ⟨k₀, hscan₀, rfl⟩ := hscan
  refine ⟨k₀, hscan₀, ?_, fun k' hk' => ?_⟩
  · rwa [weightUpTo_map_toDual] at hreached
  · have := hleast (OrderDual.toDual k') (by rwa [weightUpTo_map_toDual])
    exact OrderDual.toDual_le_toDual.mp this

end Scan

end Iota.Lib
