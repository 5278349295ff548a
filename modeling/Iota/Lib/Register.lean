import Mathlib

/-! A versioned register read along a sequence of accesses.  Each access
reads the register's current value; a writing access then sets it to its own
stamp, which is above the value it read.  `Sequenced start final accesses`
says that the register went from `start` to `final` through those accesses.
From it: each access reads what the one before it left, the values read never
go down, they go up right after each write and stay put after each read, and
the final value is the last write's stamp, or the start. -/

namespace Iota.Lib

variable {α : Type*}

structure Access (α : Type*) where
  read : α
  writes : Bool
  stamp : Option α

section

variable [Preorder α]

/-- An access and the next one: a write leaves its stamp, above what it
read, and a read leaves the value as it was. -/
def Access.Follows (u v : Access α) : Prop :=
  (u.writes = true → u.stamp = some v.read ∧ u.read < v.read) ∧ (u.writes = false → v.read = u.read)

def Sequenced : Option α → Option α → List (Access α) → Prop
  | start, final, [] => final = start
  | start, final, u :: accesses => start = some u.read ∧ (∃ s, u.stamp = some s ∧ u.read < s) ∧
      Sequenced (if u.writes then u.stamp else start) final accesses

/-- The stamp of the last write, or the start when nothing writes. -/
def lastWrite (start : Option α) (accesses : List (Access α)) : Option α :=
  accesses.foldl (fun value u => if u.writes then u.stamp else value) start

namespace Sequenced

@[simp] theorem nil_iff {start final : Option α} : Sequenced start final [] ↔ final = start := Iff.rfl

theorem cons_iff {start final : Option α} {u : Access α} {accesses : List (Access α)} :
    Sequenced start final (u :: accesses) ↔ start = some u.read ∧ (∃ s, u.stamp = some s ∧ u.read < s) ∧
      Sequenced (if u.writes then u.stamp else start) final accesses := Iff.rfl

theorem append {start middle final : Option α} :
    ∀ {l₁ l₂ : List (Access α)}, Sequenced start middle l₁ → Sequenced middle final l₂ →
      Sequenced start final (l₁ ++ l₂)
  | [], _, h₁, h₂ => by
    rw [nil_iff] at h₁
    rw [List.nil_append, ← h₁]
    exact h₂
  | u :: l₁, _, ⟨hread, hstamp, h₁⟩, h₂ => ⟨hread, hstamp, append h₁ h₂⟩

theorem final_eq : ∀ {start final : Option α} {accesses : List (Access α)},
    Sequenced start final accesses → final = lastWrite start accesses
  | _, _, [], h => h
  | _, _, _ :: _, ⟨_, _, h⟩ => by
    rw [lastWrite, List.foldl_cons]
    exact final_eq h

theorem head {start final : Option α} {accesses : List (Access α)} (h : Sequenced start final accesses) :
    ∀ u ∈ accesses.head?, start = some u.read := by
  cases accesses with
  | nil => simp
  | cons v accesses =>
    rintro u hu
    rw [List.head?_cons, Option.mem_def, Option.some.injEq] at hu
    exact hu ▸ h.1

theorem stamp_gt : ∀ {start final : Option α} {accesses : List (Access α)}, Sequenced start final accesses →
    ∀ u ∈ accesses, ∃ s, u.stamp = some s ∧ u.read < s
  | _, _, [], _ => by simp
  | _, _, v :: _, ⟨_, hv, h⟩ => by
    intro u hu
    rcases List.mem_cons.mp hu with rfl | hu
    · exact hv
    · exact stamp_gt h u hu

theorem isChain : ∀ {start final : Option α} {accesses : List (Access α)}, Sequenced start final accesses →
    accesses.IsChain Access.Follows
  | _, _, [], _ => List.IsChain.nil
  | _, _, [_], _ => List.IsChain.singleton _
  | _, _, u :: v :: accesses, ⟨hstart, ⟨s, hs, hlt⟩, h⟩ => by
    have hnext := h.1
    refine List.IsChain.cons_cons ⟨fun hw => ?_, fun hw => ?_⟩ (isChain h)
    · simp only [hw, if_true, hs, Option.some.injEq] at hnext
      subst hnext
      exact ⟨hs, hlt⟩
    · simp only [hw, Bool.false_eq_true, if_false, hstart, Option.some.injEq] at hnext
      exact hnext.symm

theorem isChain_read_le {start final : Option α} {accesses : List (Access α)}
    (h : Sequenced start final accesses) : accesses.IsChain fun u v => u.read ≤ v.read := by
  refine h.isChain.imp fun u v huv => ?_
  cases hw : u.writes
  · exact (huv.2 hw).ge
  · exact (huv.1 hw).2.le

end Sequenced

end

end Iota.Lib
