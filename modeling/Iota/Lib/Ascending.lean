import Mathlib

/-! The elements of a finite set in ascending order, as an ordered set such as
a `BTreeSet` iterates them, and the values of a finite map in the order of
their keys, as a `BTreeMap` yields them.  `Finset.sort` gives the same list, but it goes
through merge sort, which `decide` cannot evaluate; taking the least element
again and again reduces in the kernel, so runs on concrete inputs can be
checked. -/

namespace Iota.Lib

variable {α : Type*} [LinearOrder α]

def ascending (s : Finset α) : List α := go s.card s
where
  go : ℕ → Finset α → List α
    | 0, _ => []
    | n + 1, s => if h : s.Nonempty then s.min' h :: go n (s.erase (s.min' h)) else []

theorem sort_eq_min'_cons {s : Finset α} (h : s.Nonempty) :
    s.sort (· ≤ ·) = s.min' h :: (s.erase (s.min' h)).sort (· ≤ ·) := by
  have hlow : ∀ b ∈ s.erase (s.min' h), s.min' h ≤ b :=
    fun b hb => s.min'_le b (Finset.mem_of_mem_erase hb)
  rw [← Finset.sort_insert (· ≤ ·) hlow (Finset.notMem_erase _ s), Finset.insert_erase (s.min'_mem h)]

theorem ascending.go_eq_sort : ∀ (n : ℕ) (s : Finset α), s.card ≤ n → go n s = s.sort (· ≤ ·)
  | 0, s, h => by simp [go, Finset.card_eq_zero.mp (Nat.le_zero.mp h)]
  | n + 1, s, h => by
    rw [go]
    split
    · rename_i hs
      have hcard : (s.erase (s.min' hs)).card ≤ n := by
        rw [Finset.card_erase_of_mem (s.min'_mem hs)]
        omega
      rw [go_eq_sort n _ hcard, sort_eq_min'_cons hs]
    · rename_i hs
      simp [Finset.not_nonempty_iff_eq_empty.mp hs]

theorem ascending_eq_sort (s : Finset α) : ascending s = s.sort (· ≤ ·) :=
  ascending.go_eq_sort _ s le_rfl

@[simp] theorem mem_ascending {s : Finset α} {a : α} : a ∈ ascending s ↔ a ∈ s := by
  simp [ascending_eq_sort]

theorem nodup_ascending (s : Finset α) : (ascending s).Nodup := by
  simp [ascending_eq_sort]

example : ascending ({3, 1, 2} : Finset ℕ) = [1, 2, 3] := by decide

theorem head?_ascending_eq_some {s : Finset α} {a : α} (h : (ascending s).head? = some a) :
    a ∈ s ∧ ∀ b ∈ s, a ≤ b := by
  have hs : s.Nonempty := ⟨a, Iff.mp mem_ascending (List.mem_of_mem_head? h)⟩
  rw [ascending_eq_sort, sort_eq_min'_cons hs, List.head?_cons, Option.some_inj] at h
  subst h
  exact ⟨s.min'_mem hs, fun b hb => s.min'_le b hb⟩

theorem head?_ascending_eq_none {s : Finset α} (h : (ascending s).head? = none) : s = ∅ := by
  rw [List.head?_eq_none_iff] at h
  ext a
  rw [← mem_ascending, h]
  simp

theorem sum_map_ascending {M : Type*} [AddCommMonoid M] (s : Finset α) (f : α → M) :
    ((ascending s).map f).sum = ∑ x ∈ s, f x := by
  rw [← List.sum_toFinset f (nodup_ascending s)]
  congr 1
  ext
  simp

theorem sum_map_filter_ascending {M : Type*} [AddCommMonoid M] (s : Finset α) (p : α → Bool) (f : α → M) :
    (((ascending s).filter p).map f).sum = ∑ x ∈ s.filter (fun x => p x), f x := by
  rw [← List.sum_toFinset f ((nodup_ascending s).filter p)]
  congr 1
  ext
  simp

def valuesAscending [DecidableEq α] {β : Type*} (m : AList (fun _ : α => β)) : List β :=
  (ascending m.keys.toFinset).filterMap m.lookup

@[simp] theorem mem_valuesAscending [DecidableEq α] {β : Type*} {m : AList (fun _ : α => β)} {b : β} :
    b ∈ valuesAscending m ↔ ∃ k, m.lookup k = some b := by
  simp only [valuesAscending, List.mem_filterMap, mem_ascending, List.mem_toFinset]
  constructor
  · rintro ⟨k, -, hk⟩
    exact ⟨k, hk⟩
  · rintro ⟨k, hk⟩
    exact ⟨k, AList.mem_keys.mp (AList.lookup_isSome.mp (by simp [hk])), hk⟩

theorem pairwise_valuesAscending [DecidableEq α] {β : Type*} {m : AList (fun _ : α => β)} {R : β → β → Prop}
    (h : ∀ kx ky x y, m.lookup kx = some x → m.lookup ky = some y → kx < ky → R x y) :
    (valuesAscending m).Pairwise R := by
  unfold valuesAscending
  rw [List.pairwise_filterMap]
  have hsorted : (ascending m.keys.toFinset).Pairwise (· < ·) := by
    rw [ascending_eq_sort]
    exact (Finset.sortedLT_sort _).pairwise
  exact hsorted.imp fun {kx ky} hlt x hx y hy => h kx ky x y hx hy hlt

section PopFirst

variable [DecidableEq α] {β : Type*}

/-- `BTreeMap::pop_first`: the entry of the least key, taken out of the map. -/
def popFirst (m : AList (fun _ : α => β)) : Option (α × β × AList (fun _ : α => β)) :=
  match (ascending m.keys.toFinset).head? with
  | none => none
  | some k => (m.lookup k).map fun v => (k, v, m.erase k)

theorem popFirst_eq_some {m m' : AList (fun _ : α => β)} {k : α} {v : β} (h : popFirst m = some (k, v, m')) :
    m.lookup k = some v ∧ m' = m.erase k ∧ ∀ k' ∈ m, k ≤ k' := by
  unfold popFirst at h
  split at h
  · contradiction
  · rename_i k₀ hhead
    obtain ⟨v₀, hv₀, heq⟩ := Option.map_eq_some_iff.mp h
    simp only [Prod.mk.injEq] at heq
    obtain ⟨rfl, rfl, rfl⟩ := heq
    have hleast := (head?_ascending_eq_some hhead).2
    exact ⟨hv₀, rfl, fun k' hk' => hleast k' (List.mem_toFinset.mpr (AList.mem_keys.mp hk'))⟩

theorem lookup_eq_none_of_popFirst_eq_none {m : AList (fun _ : α => β)} (h : popFirst m = none) (k : α) :
    m.lookup k = none := by
  unfold popFirst at h
  split at h
  · rename_i hhead
    have hempty := head?_ascending_eq_none hhead
    rw [AList.lookup_eq_none, AList.mem_keys, ← List.mem_toFinset, hempty]
    exact Finset.notMem_empty k
  · rename_i k₀ hhead
    -- the least key has an entry, so the pop cannot come back empty
    have hk₀ := (head?_ascending_eq_some hhead).1
    rw [Option.map_eq_none_iff, AList.lookup_eq_none] at h
    exact absurd (AList.mem_keys.mpr (List.mem_toFinset.mp hk₀)) h

omit [LinearOrder α] in
theorem length_keys_erase_of_lookup {m : AList (fun _ : α => β)} {k : α} {v : β} (h : m.lookup k = some v) :
    (m.erase k).keys.length + 1 = m.keys.length := by
  have hk : k ∈ m.keys := AList.mem_keys.mp (AList.lookup_isSome.mp (by simp [h]))
  rw [AList.keys_erase, List.length_erase_of_mem hk]
  have := List.length_pos_of_mem hk
  omega

omit [LinearOrder α] in
theorem lookup_foldl_erase (m : AList (fun _ : α => β)) (ks : List α) (k : α) :
    (ks.foldl (fun m k => m.erase k) m).lookup k = if k ∈ ks then none else m.lookup k := by
  induction ks generalizing m with
  | nil => simp
  | cons k' ks ih =>
    rw [List.foldl_cons, ih]
    by_cases hk : k = k'
    · subst hk
      simp
    · simp [hk, AList.lookup_erase_ne hk]

end PopFirst

end Iota.Lib
