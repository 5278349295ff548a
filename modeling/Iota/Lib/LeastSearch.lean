import Mathlib
import Iota.Lib.Except

/-! A search for the least element: an answer is the least element of a set, or nothing
when the set is empty.  A search that tries blocks one after another, each answering for
its own set, and stops at the first that answers, answers for the union of the blocks
when every element of an earlier block lies below every element of a later one. -/

namespace Iota.Lib

section LeastSearch

variable {β : Type*} [ConditionallyCompleteLinearOrder β] [WellFoundedLT β]

/-- `answer` is the least element of `S`, and nothing when `S` is empty. -/
def AnswersLeast (answer : Option β) (S : Set β) : Prop := ∀ b, answer = some b ↔ IsLeast S b

omit [WellFoundedLT β] in
theorem answersLeast_some_iff {m : β} {S : Set β} : AnswersLeast (some m) S ↔ IsLeast S m := by
  constructor
  · intro h
    exact (h m).mp rfl
  · intro hm b
    exact ⟨fun hb => Option.some_inj.mp hb ▸ hm, fun hb => congrArg some (hm.unique hb)⟩

theorem answersLeast_none_iff {S : Set β} : AnswersLeast none S ↔ S = ∅ := by
  constructor
  · intro h
    by_contra hne
    have hleast := isLeast_csInf (Set.nonempty_iff_ne_empty.mpr hne)
    exact absurd ((h _).mpr hleast) (by simp)
  · rintro rfl b
    simp [IsLeast]

theorem AnswersLeast.eq_none_iff {answer : Option β} {S : Set β} (h : AnswersLeast answer S) :
    answer = none ↔ S = ∅ := by
  cases answer with
  | none => simpa using Iff.mp answersLeast_none_iff h
  | some m =>
    have hm := Iff.mp answersLeast_some_iff h
    simp only [reduceCtorEq, false_iff]
    exact Set.nonempty_iff_ne_empty.mp ⟨m, hm.1⟩

variable {ε α : Type*}

theorem findSomeM_answersLeast {f : α → Except ε (Option β)} {S : α → Set β} :
    ∀ {l : List α}, (∀ a ∈ l, ∃ r, f a = .ok r ∧ AnswersLeast r (S a)) →
      l.Pairwise (fun a a' => ∀ x ∈ S a, ∀ y ∈ S a', x ≤ y) →
      ∃ r, l.findSomeM? f = .ok r ∧ AnswersLeast r {x | ∃ a ∈ l, x ∈ S a}
  | [], _, _ => ⟨none, rfl, Iff.mpr answersLeast_none_iff (by simp)⟩
  | a :: l, h, hsorted => by
    rw [List.pairwise_cons] at hsorted
    obtain ⟨r, hr, hanswer⟩ := h a List.mem_cons_self
    rw [List.findSomeM?_cons, hr, except_ok_bind]
    cases r with
    | some m =>
      -- the first block answers, and its least lies below every later block
      have hm := Iff.mp answersLeast_some_iff hanswer
      refine ⟨some m, rfl, Iff.mpr answersLeast_some_iff ⟨⟨a, List.mem_cons_self, hm.1⟩, ?_⟩⟩
      rintro x ⟨a', ha', hx⟩
      rcases List.mem_cons.mp ha' with rfl | ha'
      · exact hm.2 hx
      · exact hsorted.1 a' ha' m hm.1 x hx
    | none =>
      -- an empty first block adds nothing to the union
      have hempty := Iff.mp answersLeast_none_iff hanswer
      obtain ⟨r', hr', hanswer'⟩ :=
        findSomeM_answersLeast (fun a' ha' => h a' (List.mem_cons_of_mem a ha')) hsorted.2
      have hunion : {x | ∃ a' ∈ a :: l, x ∈ S a'} = {x | ∃ a' ∈ l, x ∈ S a'} := by
        ext x
        simp [hempty]
      exact ⟨r', hr', hunion ▸ hanswer'⟩

end LeastSearch

end Iota.Lib
