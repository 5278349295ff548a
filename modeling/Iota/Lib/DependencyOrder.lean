import Mathlib

/-! Lists in dependency order: every element comes after the elements it
depends on, unless what it depends on was held before the list started.  An
element names its dependencies by their keys.  Such a list is obtained by
sorting on a rank that each dependency lowers. -/

namespace Iota.Lib

variable {α β : Type*} (key : α → β) (deps : α → List β)

/-- Each element's dependencies are held, or are the keys of earlier elements. -/
def DepsBefore : (β → Prop) → List α → Prop
  | _, [] => True
  | held, x :: l => (∀ d ∈ deps x, held d) ∧ DepsBefore (fun d => held d ∨ d = key x) l

variable {key deps}

theorem DepsBefore.mono :
    ∀ {l : List α} {held held' : β → Prop}, (∀ d, held d → held' d) →
      DepsBefore key deps held l → DepsBefore key deps held' l
  | [], _, _, _, _ => trivial
  | _ :: _, _, _, hh, ⟨hx, hl⟩ =>
    ⟨fun d hd => hh d (hx d hd), hl.mono fun d => Or.imp_left (hh d)⟩

theorem depsBefore_append :
    ∀ {l₁ l₂ : List α} {held : β → Prop}, DepsBefore key deps held (l₁ ++ l₂) ↔
      DepsBefore key deps held l₁ ∧ DepsBefore key deps (fun d => held d ∨ ∃ x ∈ l₁, key x = d) l₂
  | [], l₂, held => by
    simp only [List.nil_append, DepsBefore, List.not_mem_nil, false_and, exists_false, or_false, true_and]
  | x :: l₁, l₂, held => by
    rw [List.cons_append, DepsBefore, DepsBefore, depsBefore_append, and_assoc]
    -- the keys held after `x :: l₁` are the same, grouped differently
    have hheld : ∀ d, ((held d ∨ d = key x) ∨ ∃ y ∈ l₁, key y = d) ↔ held d ∨ ∃ y ∈ x :: l₁, key y = d := by
      intro d
      constructor
      · rintro ((h | rfl) | ⟨y, hy, rfl⟩)
        · exact .inl h
        · exact .inr ⟨x, List.mem_cons_self, rfl⟩
        · exact .inr ⟨y, List.mem_cons_of_mem x hy, rfl⟩
      · rintro (h | ⟨y, hy, rfl⟩)
        · exact .inl (.inl h)
        · rcases List.mem_cons.mp hy with rfl | hy
          · exact .inl (.inr rfl)
          · exact .inr ⟨y, hy, rfl⟩
    simp only [hheld]

theorem DepsBefore.held_or_mem :
    ∀ {l : List α} {held : β → Prop}, DepsBefore key deps held l →
      ∀ x ∈ l, ∀ d ∈ deps x, held d ∨ ∃ y ∈ l, key y = d
  | [], _, _, _, hx, _, _ => absurd hx List.not_mem_nil
  | y :: l, _, ⟨hy, hl⟩, x, hx, d, hd => by
    rcases List.mem_cons.mp hx with rfl | hx
    · exact .inl (hy d hd)
    · rcases hl.held_or_mem x hx d hd with (hheld | rfl) | ⟨z, hz, rfl⟩
      · exact .inl hheld
      · exact .inr ⟨y, List.mem_cons_self, rfl⟩
      · exact .inr ⟨z, List.mem_cons_of_mem y hz, rfl⟩

theorem depsBefore_of_sorted {rank : α → ℕ} :
    ∀ {l : List α} {held : β → Prop}, l.Pairwise (fun x y => rank x ≤ rank y) →
      (∀ x ∈ l, ∀ d ∈ deps x, ∀ y ∈ l, key y = d → rank y < rank x) →
      (∀ x ∈ l, ∀ d ∈ deps x, held d ∨ ∃ y ∈ l, key y = d) → DepsBefore key deps held l
  | [], _, _, _, _ => trivial
  | x :: l, held, hsorted, hrank, hdeps => by
    rw [List.pairwise_cons] at hsorted
    refine ⟨fun d hd => ?_, depsBefore_of_sorted hsorted.2
      (fun z hz d hd y hy => hrank z (List.mem_cons_of_mem x hz) d hd y (List.mem_cons_of_mem x hy))
      (fun z hz d hd => ?_)⟩
    · -- a dependency of the first element cannot be in the list: it would rank lower
      rcases hdeps x List.mem_cons_self d hd with hheld | ⟨y, hy, rfl⟩
      · exact hheld
      · have hlt := hrank x List.mem_cons_self (key y) hd y hy rfl
        rcases List.mem_cons.mp hy with rfl | hy
        · exact absurd hlt (Nat.lt_irrefl _)
        · exact absurd (hsorted.1 y hy) (Nat.not_le.mpr hlt)
    · rcases hdeps z (List.mem_cons_of_mem x hz) d hd with hheld | ⟨y, hy, rfl⟩
      · exact .inl (.inl hheld)
      · rcases List.mem_cons.mp hy with rfl | hy
        · exact .inl (.inr rfl)
        · exact .inr ⟨y, hy, rfl⟩

end Iota.Lib
