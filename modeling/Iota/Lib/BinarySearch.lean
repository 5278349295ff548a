import Mathlib

/-! Rust's `slice::binary_search_by` as the standard library of Rust 1.86 runs
it: the candidate range halves without an early exit on `Equal`, and one last
comparison decides between `Ok` and `Err`. `Result<usize, usize>` is
`Except ℕ ℕ`. When the comparator is partitioned on the slice (`Less`, then
`Equal`, then `Greater`) and some element compares `Equal`, the search
returns such an element. -/

namespace Iota.Lib

variable {α : Type}

/-- The loop of `binary_search_by`: the candidate range is `[base, base + size)`.
Each round shrinks it, so the length of the slice bounds the rounds (`fuel`). -/
def binarySearchLoop (f : α → Ordering) (xs : List α) : ℕ → ℕ → ℕ → ℕ
  | 0, base, _ => base
  | fuel + 1, base, size =>
    if size ≤ 1 then base
    else
      let half := size / 2
      let mid := base + half
      let base := if xs[mid]?.map f = some .gt then base else mid
      binarySearchLoop f xs fuel base (size - half)

def binarySearchBy (xs : List α) (f : α → Ordering) : Except ℕ ℕ :=
  if xs.length = 0 then .error 0
  else
    let base := binarySearchLoop f xs xs.length 0 xs.length
    match xs[base]?.map f with
    | some .eq => .ok base
    | some .lt => .error (base + 1)
    | _ => .error base

/-- `Less` comes before everything else and `Greater` after everything else. -/
def Partitioned (f : α → Ordering) (xs : List α) : Prop :=
  ∀ i j (hi : i < xs.length) (hj : j < xs.length), i ≤ j →
    (f xs[i] ≠ .lt → f xs[j] ≠ .lt) ∧ (f xs[i] = .gt → f xs[j] = .gt)

variable {f : α → Ordering} {xs : List α}

theorem binarySearchLoop_eq (hp : Partitioned f xs) :
    ∀ (fuel base size : ℕ), 1 ≤ size → size ≤ fuel + 1 → base + size ≤ xs.length →
      (∃ t, ∃ ht : t < xs.length, base ≤ t ∧ t < base + size ∧ f xs[t] = .eq) →
      ∃ hr : binarySearchLoop f xs fuel base size < xs.length, f xs[binarySearchLoop f xs fuel base size] = .eq
  | 0, base, size, hsize, hfuel, hlen, ⟨t, ht, hbase, htop, heq⟩ => by
    -- one candidate left: it is the `Equal` one
    obtain rfl : t = base := by omega
    exact ⟨ht, heq⟩
  | fuel + 1, base, size, hsize, hfuel, hlen, ⟨t, ht, hbase, htop, heq⟩ => by
    rw [binarySearchLoop]
    split_ifs with hone
    · obtain rfl : t = base := by omega
      exact ⟨ht, heq⟩
    · have hmid : base + size / 2 < xs.length := by omega
      dsimp only
      split_ifs with hgt <;> rw [List.getElem?_eq_getElem hmid, Option.map_some, Option.some_inj] at *
      · -- `Greater` at the middle: the `Equal` element is below it
        have htmid : t < base + size / 2 := by
          by_contra hle
          have := (hp _ t hmid ht (by omega)).2 hgt
          rw [heq] at this
          cases this
        exact binarySearchLoop_eq hp fuel base (size - size / 2) (by omega) (by omega) (by omega)
          ⟨t, ht, hbase, by omega, heq⟩
      · -- `Less` or `Equal` at the middle: an `Equal` element is at it or above it
        refine binarySearchLoop_eq hp fuel (base + size / 2) (size - size / 2) (by omega) (by omega) (by omega) ?_
        by_cases hmideq : f xs[base + size / 2] = .eq
        · exact ⟨base + size / 2, hmid, Nat.le_refl _, by omega, hmideq⟩
        · have hlt : f xs[base + size / 2] = .lt := by
            cases hc : f xs[base + size / 2] <;> simp_all
          have htmid : base + size / 2 < t := by
            by_contra hle
            have := (hp t _ ht hmid (by omega)).1 (by rw [heq]; decide)
            exact this hlt
          exact ⟨t, ht, by omega, by omega, heq⟩

theorem binarySearchBy_of_eq (hp : Partitioned f xs) {i : ℕ} (hi : i < xs.length) (heq : f xs[i] = .eq) :
    ∃ j, ∃ hj : j < xs.length, binarySearchBy xs f = .ok j ∧ f xs[j] = .eq := by
  have hne : xs.length ≠ 0 := by omega
  obtain ⟨hr, hreq⟩ := binarySearchLoop_eq hp xs.length 0 xs.length (by omega) (by omega) (by omega)
    ⟨i, hi, by omega, by omega, heq⟩
  refine ⟨_, hr, ?_, hreq⟩
  rw [binarySearchBy, if_neg hne]
  dsimp only
  rw [List.getElem?_eq_getElem hr, Option.map_some, hreq]

end Iota.Lib
