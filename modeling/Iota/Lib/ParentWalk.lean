import Mathlib

/-! Walking up a partial parent map: from a node, follow parents until a target is met or
a node has no parent.  Reaching the target is the reflexive-transitive closure of the
parent edges; on an acyclic map with finitely many nodes that have a parent, as many
steps as there are such nodes, and one more, always suffice.  Adding an edge to an
acyclic relation keeps it acyclic unless the edge's head already reaches its tail. -/

namespace Iota.Lib

open Relation

section Edge

variable {α : Type*}

/-- A relation with one more edge, from `u` to `v`. -/
def WithEdge (r : α → α → Prop) (u v : α) (a b : α) : Prop := r a b ∨ a = u ∧ b = v

theorem transGen_withEdge {r : α → α → Prop} {u v a b : α} (h : TransGen (WithEdge r u v) a b) :
    TransGen r a b ∨ ReflTransGen r a u ∧ ReflTransGen r v b := by
  induction h with
  | single hab =>
    rcases hab with hr | ⟨rfl, rfl⟩
    · exact .inl (.single hr)
    · exact .inr ⟨.refl, .refl⟩
  | tail _ hcb ih =>
    rcases hcb with hr | ⟨rfl, rfl⟩
    · rcases ih with hac | ⟨hau, hvc⟩
      · exact .inl (hac.tail hr)
      · exact .inr ⟨hau, hvc.tail hr⟩
    · rcases ih with hac | ⟨hau, -⟩
      · exact .inr ⟨hac.to_reflTransGen, .refl⟩
      · exact .inr ⟨hau, .refl⟩

theorem withEdge_acyclic {r : α → α → Prop} {u v : α} (hacyclic : ∀ a, ¬ TransGen r a a)
    (hnot : ¬ ReflTransGen r v u) : ∀ a, ¬ TransGen (WithEdge r u v) a a := by
  intro a hcycle
  rcases transGen_withEdge hcycle with hr | ⟨hau, hva⟩
  · exact hacyclic a hr
  · exact hnot (hva.trans hau)

end Edge

section Walk

variable {α : Type*} [DecidableEq α]

/-- The edges of a parent map. -/
def ParentEdge (parent : α → Option α) (a b : α) : Prop := parent a = some b

/-- Follow parents from `cur` until `target`: `some true` when it is met, `some false` at
a node with no parent, `none` when the fuel runs out. -/
def walkTo (parent : α → Option α) (target : α) : ℕ → α → Option Bool
  | 0, _ => none
  | fuel + 1, cur =>
    if cur = target then some true
    else
      match parent cur with
      | some next => walkTo parent target fuel next
      | none => some false

theorem reflTransGen_of_walkTo_eq_true {parent : α → Option α} {target : α} :
    ∀ {fuel : ℕ} {cur : α}, walkTo parent target fuel cur = some true → ReflTransGen (ParentEdge parent) cur target
  | 0, _, h => by simp [walkTo] at h
  | fuel + 1, cur, h => by
    rw [walkTo] at h
    by_cases hcur : cur = target
    · rw [hcur]
    · rw [if_neg hcur] at h
      cases hnext : parent cur with
      | none => simp [hnext] at h
      | some next =>
        rw [hnext] at h
        exact ReflTransGen.head hnext (reflTransGen_of_walkTo_eq_true h)

theorem not_reflTransGen_of_walkTo_eq_false {parent : α → Option α} {target : α} :
    ∀ {fuel : ℕ} {cur : α}, walkTo parent target fuel cur = some false →
      ¬ ReflTransGen (ParentEdge parent) cur target
  | 0, _, h => by simp [walkTo] at h
  | fuel + 1, cur, h => by
    rw [walkTo] at h
    by_cases hcur : cur = target
    · simp [hcur] at h
    · rw [if_neg hcur] at h
      intro hreach
      rcases hreach.cases_head with heq | ⟨next', hedge, hrest⟩
      · exact hcur heq
      · have hnext : parent cur = some next' := hedge
        rw [hnext] at h
        exact not_reflTransGen_of_walkTo_eq_false h hrest

theorem walkTo_erase {parent : α → Option α} {target removed : α} :
    ∀ (fuel : ℕ) (cur : α), ¬ ReflTransGen (ParentEdge parent) cur removed →
      walkTo (fun x => if x = removed then none else parent x) target fuel cur = walkTo parent target fuel cur
  | 0, _, _ => rfl
  | fuel + 1, cur, hcur => by
    have hne : cur ≠ removed := fun h => hcur (h ▸ .refl)
    simp only [walkTo, if_neg hne]
    split_ifs
    · rfl
    · cases hnext : parent cur with
      | none => rfl
      | some next => exact walkTo_erase fuel next fun hreach => hcur (ReflTransGen.head hnext hreach)

theorem walkTo_isSome (target : α) :
    ∀ (n : ℕ) (parent : α → Option α) (nodes : Finset α), nodes.card ≤ n →
      (∀ x, (parent x).isSome → x ∈ nodes) → (∀ a, ¬ TransGen (ParentEdge parent) a a) →
      ∀ cur, (walkTo parent target (n + 1) cur).isSome := by
  intro n
  induction n with
  | zero =>
    intro parent nodes hcard hnodes _ cur
    have hempty : nodes = ∅ := Finset.card_eq_zero.mp (Nat.le_zero.mp hcard)
    have hnone : parent cur = none := by
      cases hp : parent cur with
      | none => rfl
      | some _ => simpa [hempty] using hnodes cur (by simp [hp])
    simp only [walkTo, hnone]
    split_ifs <;> rfl
  | succ n ih =>
    intro parent nodes hcard hnodes hacyclic cur
    rw [walkTo]
    split_ifs with hcur
    · rfl
    · cases hnext : parent cur with
      | none => rfl
      | some next =>
        -- from the parent on, the walk never comes back to `cur`: drop its edge
        have hback : ¬ ReflTransGen (ParentEdge parent) next cur :=
          fun hreach => hacyclic cur (TransGen.head' hnext hreach)
        have hmem : cur ∈ nodes := hnodes cur (by simp [hnext])
        have hsmaller := ih (fun x => if x = cur then none else parent x) (nodes.erase cur)
          (by rw [Finset.card_erase_of_mem hmem]; omega)
          (by
            intro x hx
            by_cases hxc : x = cur
            · simp [hxc] at hx
            · rw [if_neg hxc] at hx
              exact Finset.mem_erase.mpr ⟨hxc, hnodes x hx⟩)
          (by
            intro a ha
            apply hacyclic a
            refine TransGen.mono (fun x y hxy => ?_) a a ha
            by_cases hxc : x = cur
            · simp [ParentEdge, hxc] at hxy
            · simpa [ParentEdge, hxc] using hxy)
          next
        simp only
        rwa [walkTo_erase (n + 1) next hback] at hsmaller

end Walk

end Iota.Lib
