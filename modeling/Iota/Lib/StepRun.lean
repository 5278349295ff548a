import Iota.Lib.Except

/-! Runs of a machine whose step may fail and emits outputs: the run applies the
step to each operation in turn and collects the outputs.  What the environment
promises about an operation may depend on the state it meets, so it is stated
along the run, for every state the run can reach.  An invariant of the state and
the outputs so far that every step keeps holds after the whole run. -/

namespace Iota.Lib

universe u

variable {σ ω η ε : Type u} (step : σ → ω → Except ε (σ × List η))

/-- The run of `step` over the operations, with the outputs of all steps in order. -/
def runSteps : σ → List ω → Except ε (σ × List η)
  | s, [] => .ok (s, [])
  | s, op :: ops => do
    let (s, out) ← step s op
    let (s, rest) ← runSteps s ops
    pure (s, out ++ rest)

/-- `given` holds of each operation at the state the run reaches it in. -/
def RunGiven (given : σ → ω → Prop) : σ → List ω → Prop
  | _, [] => True
  | s, op :: ops => given s op ∧ ∀ s' out, step s op = .ok (s', out) → RunGiven given s' ops

variable {step}

theorem runSteps_cons_eq_ok {s s' : σ} {op : ω} {ops : List ω} {out : List η} :
    runSteps step s (op :: ops) = .ok (s', out) ↔
      ∃ s₁ out₁ rest, step s op = .ok (s₁, out₁) ∧ runSteps step s₁ ops = .ok (s', rest) ∧ out = out₁ ++ rest := by
  rw [runSteps]
  constructor
  · intro h
    obtain ⟨⟨s₁, out₁⟩, h₁, h⟩ := except_bind_eq_ok.mp h
    obtain ⟨⟨s₂, rest⟩, h₂, h⟩ := except_bind_eq_ok.mp h
    obtain ⟨rfl, rfl⟩ := Prod.mk.inj (except_pure_eq_ok.mp h)
    exact ⟨s₁, out₁, rest, h₁, h₂, rfl⟩
  · rintro ⟨s₁, out₁, rest, h₁, h₂, rfl⟩
    rw [h₁, except_ok_bind]
    dsimp only
    rw [h₂, except_ok_bind]
    rfl

theorem runSteps_induction {given : σ → ω → Prop} {I : σ → List η → Prop}
    (hstep : ∀ s E op s' out, I s E → given s op → step s op = .ok (s', out) → I s' (E ++ out)) :
    ∀ {ops : List ω} {s s' : σ} {E out : List η}, I s E → RunGiven step given s ops →
      runSteps step s ops = .ok (s', out) → I s' (E ++ out)
  | [], s, s', E, out, hI, _, h => by
    obtain ⟨rfl, rfl⟩ := Prod.mk.inj (Except.ok.inj h).symm
    rwa [List.append_nil]
  | op :: ops, s, s', E, out, hI, hgiven, h => by
    obtain ⟨s₁, out₁, rest, h₁, h₂, rfl⟩ := Iff.mp runSteps_cons_eq_ok h
    have hI₁ := hstep s E op s₁ out₁ hI hgiven.1 h₁
    rw [← List.append_assoc]
    exact runSteps_induction hstep hI₁ (hgiven.2 s₁ out₁ h₁) h₂

theorem runGiven_cons_of_eq {given : σ → ω → Prop} {s s₁ : σ} {op : ω} {ops : List ω} {out₁ : List η}
    (hgiven : given s op) (h₁ : step s op = .ok (s₁, out₁)) (hrest : RunGiven step given s₁ ops) :
    RunGiven step given s (op :: ops) := by
  refine ⟨hgiven, fun s' out h => ?_⟩
  obtain ⟨rfl, rfl⟩ := Prod.mk.inj (Except.ok.inj (h₁.symm.trans h))
  exact hrest

/-! ### Outputs -/

theorem append_eq_append_cons_cases {α : Type u} {l l' pre post : List α} {x : α}
    (h : l ++ l' = pre ++ x :: post) : (∃ post', l = pre ++ x :: post') ∨ ∃ c', pre = l ++ c' ∧ l' = c' ++ x :: post := by
  rcases List.append_eq_append_iff.mp h with ⟨a', hpre, hl'⟩ | ⟨c', hl, hpost⟩
  · exact .inr ⟨a', hpre, hl'⟩
  · cases c' with
    | nil =>
      rw [List.append_nil] at hl
      exact .inr ⟨[], by rw [hl, List.append_nil], hpost.symm⟩
    | cons y c' =>
      obtain ⟨rfl, -⟩ := List.cons.inj hpost
      exact .inl ⟨c', hl⟩

theorem exists_eq_append_cons_of_append_eq {α : Type u} {l l' pre post : List α} {x : α}
    (h : l ++ l' = pre ++ x :: post) (hx : x ∉ l') : ∃ post', l = pre ++ x :: post' := by
  rcases append_eq_append_cons_cases h with hpre | ⟨c', -, hl'⟩
  · exact hpre
  · exact absurd (hl' ▸ List.mem_append_right c' List.mem_cons_self) hx

theorem exists_of_mem_of_forall₂ {α β : Type u} {R : α → β → Prop} :
    ∀ {l₁ : List α} {l₂ : List β}, List.Forall₂ R l₁ l₂ → ∀ {b : β}, b ∈ l₂ → ∃ a ∈ l₁, R a b
  | _, _, .nil, _, hb => absurd hb List.not_mem_nil
  | a :: _, _ :: _, .cons hab hrest, b, hb => by
    rcases List.mem_cons.mp hb with rfl | hb
    · exact ⟨a, List.mem_cons_self, hab⟩
    · obtain ⟨a', ha', hR⟩ := exists_of_mem_of_forall₂ hrest hb
      exact ⟨a', List.mem_cons_of_mem a ha', hR⟩

end Iota.Lib
