import Mathlib

/-! Threads that share a state and take atomic steps one at a time, in the
order a schedule gives.  This is how concurrent calls interleave when each of
them holds a lock only for one operation at a time: every interleaving is a
schedule, and what every step keeps holds after every schedule. -/

namespace Iota.Lib

structure Threads (σ τ : Type*) where
  shared : σ
  threads : List τ

namespace Threads

variable {σ τ : Type*} (move : σ → τ → σ × τ)

/-- Thread `i` makes one atomic move; an index past the last thread does
nothing. -/
def step (s : Threads σ τ) (i : ℕ) : Threads σ τ :=
  if h : i < s.threads.length then
    ⟨(move s.shared s.threads[i]).1, s.threads.set i (move s.shared s.threads[i]).2⟩
  else s

def run (s : Threads σ τ) (schedule : List ℕ) : Threads σ τ := schedule.foldl (step move) s

variable {move}

@[simp] theorem run_nil (s : Threads σ τ) : run move s [] = s := rfl

@[simp] theorem run_cons (s : Threads σ τ) (i : ℕ) (schedule : List ℕ) :
    run move s (i :: schedule) = run move (step move s i) schedule := rfl

theorem step_preserves {P : Threads σ τ → Prop}
    (hmove : ∀ s (i : ℕ) (hi : i < s.threads.length), P s →
      P ⟨(move s.shared s.threads[i]).1, s.threads.set i (move s.shared s.threads[i]).2⟩)
    (s : Threads σ τ) (i : ℕ) (hs : P s) : P (step move s i) := by
  unfold step
  split
  · exact hmove s i ‹_› hs
  · exact hs

theorem run_preserves {P : Threads σ τ → Prop} (hstep : ∀ s i, P s → P (step move s i)) :
    ∀ (schedule : List ℕ) {s : Threads σ τ}, P s → P (run move s schedule)
  | [], _, h => h
  | i :: schedule, s, h => run_preserves hstep schedule (hstep s i h)

@[simp] theorem length_step (s : Threads σ τ) (i : ℕ) :
    (step move s i).threads.length = s.threads.length := by
  unfold step
  split <;> simp

end Threads

theorem sum_map_set_add {τ : Type*} (f : τ → ℕ) :
    ∀ (l : List τ) (i : ℕ) (hi : i < l.length) (x : τ),
      ((l.set i x).map f).sum + f l[i] = (l.map f).sum + f x
  | [], _, hi, _ => absurd hi (Nat.not_lt_zero _)
  | y :: l, 0, _, x => by simp; omega
  | y :: l, i + 1, hi, x => by
    have := sum_map_set_add f l i (by simpa using hi) x
    simp only [List.set_cons_succ, List.map_cons, List.sum_cons, List.getElem_cons_succ]
    omega

end Iota.Lib
