import Mathlib

/-! The last element of each run of elements with one key, as a look-behind iterator
yields them: an element is kept when the next one has another key, and the last element
is always kept.  In a list ordered by a position that the key follows, the elements of
one key stand together and the one kept is the last of them, so the kept elements are
exactly those with no later element of their key. -/

namespace Iota.Lib

variable {α κ β : Type*}

/-- A list ordered by `pos`, along which `key` does not decrease. -/
structure Ordered [LinearOrder β] [PartialOrder κ] (key : α → κ) (pos : α → β) (l : List α) : Prop where
  sorted : l.Pairwise fun a b => pos a < pos b
  key_mono : ∀ a ∈ l, ∀ b ∈ l, pos a ≤ pos b → key a ≤ key b

theorem Ordered.tail [LinearOrder β] [PartialOrder κ] {key : α → κ} {pos : α → β} {a : α} {l : List α}
    (h : Ordered key pos (a :: l)) : Ordered key pos l :=
  ⟨(List.pairwise_cons.mp h.sorted).2,
    fun x hx y hy hxy => h.key_mono x (List.mem_cons_of_mem a hx) y (List.mem_cons_of_mem a hy) hxy⟩

variable [DecidableEq κ] (key : α → κ)

def lastOfRuns : List α → List α
  | [] => []
  | [a] => [a]
  | a :: b :: rest => if key a = key b then lastOfRuns (b :: rest) else a :: lastOfRuns (b :: rest)

theorem lastOfRuns_sublist : ∀ l : List α, (lastOfRuns key l).Sublist l
  | [] => List.Sublist.slnil
  | [_] => List.Sublist.refl _
  | a :: b :: rest => by
    rw [lastOfRuns]
    split_ifs
    · exact (lastOfRuns_sublist (b :: rest)).cons a
    · exact (lastOfRuns_sublist (b :: rest)).cons_cons a

section Ordered

variable [LinearOrder β] [PartialOrder κ] {key} {pos : α → β}

theorem mem_lastOfRuns_iff : ∀ {l : List α}, Ordered key pos l → ∀ {a : α},
    a ∈ lastOfRuns key l ↔ a ∈ l ∧ ∀ b ∈ l, key b = key a → pos b ≤ pos a
  | [], _, a => by simp [lastOfRuns]
  | [x], _, a => by
    simp only [lastOfRuns, List.mem_singleton]
    constructor
    · rintro rfl
      exact ⟨rfl, fun b hb _ => by rw [hb]⟩
    · exact fun h => h.1
  | x :: y :: rest, h, a => by
    have hafter : ∀ z ∈ y :: rest, pos x < pos z := (List.pairwise_cons.mp h.sorted).1
    have hrest : ∀ z ∈ rest, pos y < pos z :=
      (List.pairwise_cons.mp (List.pairwise_cons.mp h.sorted).2).1
    have ih := mem_lastOfRuns_iff (l := y :: rest) h.tail (a := a)
    rw [lastOfRuns]
    split_ifs with hkey
    · -- `x` and `y` share a key: `x` is dropped, and `y` comes after it
      rw [ih]
      constructor
      · rintro ⟨hmem, hlast⟩
        refine ⟨List.mem_cons_of_mem x hmem, fun b hb hkb => ?_⟩
        rcases List.mem_cons.mp hb with rfl | hb
        · exact (hafter a hmem).le
        · exact hlast b hb hkb
      · rintro ⟨hmem, hlast⟩
        rcases List.mem_cons.mp hmem with rfl | hmem
        · exact absurd (hlast y (by simp) hkey.symm) (not_le.mpr (hafter y (by simp)))
        · exact ⟨hmem, fun b hb hkb => hlast b (List.mem_cons_of_mem _ hb) hkb⟩
    · -- a new key starts at `y`: `x` is the last of its run
      rw [List.mem_cons, ih]
      constructor
      · rintro (rfl | ⟨hmem, hlast⟩)
        · refine ⟨List.mem_cons_self, fun b hb hkb => ?_⟩
          rcases List.mem_cons.mp hb with rfl | hb
          · exact le_rfl
          · -- every later key is at least `key y`, which is above `key a`
            have hxy : key a ≤ key y :=
              h.key_mono a List.mem_cons_self y (by simp) (hafter y (by simp)).le
            have hyb : key y ≤ key b := by
              apply h.key_mono y (by simp) b (List.mem_cons_of_mem _ hb)
              rcases List.mem_cons.mp hb with rfl | hb
              · exact le_rfl
              · exact (hrest b hb).le
            exact absurd (le_antisymm hxy (hkb ▸ hyb)) hkey
        · refine ⟨List.mem_cons_of_mem x hmem, fun b hb hkb => ?_⟩
          rcases List.mem_cons.mp hb with rfl | hb
          · exact (hafter a hmem).le
          · exact hlast b hb hkb
      · rintro ⟨hmem, hlast⟩
        rcases List.mem_cons.mp hmem with rfl | hmem
        · exact .inl rfl
        · exact .inr ⟨hmem, fun b hb hkb => hlast b (List.mem_cons_of_mem _ hb) hkb⟩

theorem exists_mem_lastOfRuns : ∀ {l : List α}, Ordered key pos l → ∀ {a : α}, a ∈ l →
    ∃ b ∈ lastOfRuns key l, key b = key a ∧ pos a ≤ pos b
  | [], _, _, ha => absurd ha List.not_mem_nil
  | [x], _, a, ha => by
    rw [List.mem_singleton.mp ha]
    exact ⟨x, by simp [lastOfRuns], rfl, le_rfl⟩
  | x :: y :: rest, h, a, ha => by
    have hafter : ∀ z ∈ y :: rest, pos x < pos z := (List.pairwise_cons.mp h.sorted).1
    have hsub : lastOfRuns key (y :: rest) ⊆ lastOfRuns key (x :: y :: rest) := by
      rw [lastOfRuns]
      split_ifs
      · exact List.Subset.refl _
      · exact List.subset_cons_self _ _
    rcases List.mem_cons.mp ha with rfl | ha
    · by_cases hkey : key a = key y
      · -- `a` is not kept; the kept element of its run comes later
        obtain ⟨b, hb, hkb, hpb⟩ := exists_mem_lastOfRuns h.tail (a := y) List.mem_cons_self
        exact ⟨b, hsub hb, hkb.trans hkey.symm, (hafter y List.mem_cons_self).le.trans hpb⟩
      · refine ⟨a, ?_, rfl, le_rfl⟩
        rw [lastOfRuns, if_neg hkey]
        exact List.mem_cons_self
    · obtain ⟨b, hb, hkb, hpb⟩ := exists_mem_lastOfRuns h.tail ha
      exact ⟨b, hsub hb, hkb, hpb⟩

theorem Ordered.pairwise_lastOfRuns {l : List α} (h : Ordered key pos l) :
    (lastOfRuns key l).Pairwise fun a b => key a < key b := by
  have hsub := lastOfRuns_sublist key l
  refine List.Pairwise.imp_of_mem ?_ (h.sorted.sublist hsub)
  intro a b ha hb hab
  have hle := h.key_mono a (hsub.subset ha) b (hsub.subset hb) hab.le
  refine lt_of_le_of_ne hle fun hkey => ?_
  have hlast := ((mem_lastOfRuns_iff h).mp ha).2 b (hsub.subset hb) hkey.symm
  exact absurd hab (not_lt.mpr hlast)

end Ordered

omit [DecidableEq κ] in
theorem eq_of_pairwise_key_lt [Preorder κ] {key : α → κ} :
    ∀ {l : List α}, l.Pairwise (fun a b => key a < key b) → ∀ {a b : α}, a ∈ l → b ∈ l → key a = key b → a = b
  | [], _, _, _, ha, _, _ => absurd ha List.not_mem_nil
  | x :: l, h, a, b, ha, hb, hkey => by
    have hx : ∀ z ∈ l, key x < key z := (List.pairwise_cons.mp h).1
    rcases List.mem_cons.mp ha with hax | hal
    · rcases List.mem_cons.mp hb with hbx | hbl
      · rw [hax, hbx]
      · exact absurd (by rw [← hax]; exact hkey) (hx b hbl).ne
    · rcases List.mem_cons.mp hb with hbx | hbl
      · exact absurd (by rw [← hbx]; exact hkey.symm) (hx a hal).ne
      · exact eq_of_pairwise_key_lt (List.pairwise_cons.mp h).2 hal hbl hkey

end Iota.Lib
