import Mathlib
import Iota.Lib.Except

/-! Move's unsigned integers and vectors as the Move VM executes them. A value
of `uN` is a natural number below `2 ^ N`: an addition or multiplication whose
result does not fit aborts, as do a subtraction below zero, a division by zero,
a cast of a value too large for its target, and an index past the end of a
vector. The width is a parameter. The vector macros of the standard library
(`take_do_ref!`, `take_fold_ref!`) are folds whose every index is asserted to
be in range. -/

namespace Iota.Lib.Move

/-- Why a Move call aborts. -/
inductive Abort
  /-- Overflow, underflow, a division by zero or a failed cast. -/
  | arithmeticError
  /-- A vector index past the end. -/
  | vectorIndexOutOfBounds
  /-- An `abort` or a failed `assert!`, with its code. -/
  | abort (code : ℕ)
  /-- A failed `assert!` that gives no code. -/
  | assertFailed
  deriving DecidableEq, Repr

def add (w a b : ℕ) : Except Abort ℕ := if a + b < 2 ^ w then .ok (a + b) else .error .arithmeticError

def sub (a b : ℕ) : Except Abort ℕ := if b ≤ a then .ok (a - b) else .error .arithmeticError

def mul (w a b : ℕ) : Except Abort ℕ := if a * b < 2 ^ w then .ok (a * b) else .error .arithmeticError

def div (a b : ℕ) : Except Abort ℕ := if b = 0 then .error .arithmeticError else .ok (a / b)

def cast (w a : ℕ) : Except Abort ℕ := if a < 2 ^ w then .ok a else .error .arithmeticError

/-- The body of `std::macros::num_divide_and_round_up!` for a divisor that is
not zero. -/
def roundUpDiv (x y : ℕ) : ℕ := if x % y = 0 then x / y else x / y + 1

/-- `x.divide_and_round_up(y)`: its `x % y` aborts on a zero divisor. -/
def divideAndRoundUp (x y : ℕ) : Except Abort ℕ :=
  if y = 0 then .error .arithmeticError else .ok (roundUpDiv x y)

def assert (p : Prop) [Decidable p] (code : ℕ) : Except Abort Unit :=
  if p then .ok () else .error (.abort code)

/-- `v[i]`, read. -/
def borrow {α : Type} (v : List α) (i : ℕ) : Except Abort α :=
  match v[i]? with
  | some a => .ok a
  | none => .error .vectorIndexOutOfBounds

/-- `f(&mut v[i])`. -/
def modify {α : Type} (v : List α) (i : ℕ) (f : α → α) : Except Abort (List α) :=
  if i < v.length then .ok (v.modify i f) else .error .vectorIndexOutOfBounds

/-- The element `take_do_ref!` hands to its body: `assert!(i < v_len)`, then `&v[i]`. -/
def take {α : Type} (v : List α) (i : ℕ) : Except Abort α :=
  match v[i]? with
  | some a => .ok a
  | none => .error .assertFailed

/-- `take_do_with_ix_ref!` with a body that folds a state: the body sees the
index taken from `ix` and the element at it. -/
def takeFoldWithIx {α β : Type} (v : List α) (ix : List ℕ) (init : β) (f : β → ℕ → α → Except Abort β) :
    Except Abort β :=
  ix.foldlM (fun acc i => do f acc i (← take v i)) init

/-- `v.take_fold_ref!(ix, init, f)`. -/
def takeFoldRef {α β : Type} (v : List α) (ix : List ℕ) (init : β) (f : β → α → Except Abort β) :
    Except Abort β :=
  takeFoldWithIx v ix init fun acc _ a => f acc a

/-! ### Operations that do not abort -/

section Succeeds

variable {w a b : ℕ}

theorem add_of_lt (h : a + b < 2 ^ w) : add w a b = .ok (a + b) := if_pos h

theorem sub_of_le (h : b ≤ a) : sub a b = .ok (a - b) := if_pos h

theorem mul_of_lt (h : a * b < 2 ^ w) : mul w a b = .ok (a * b) := if_pos h

theorem div_of_pos (h : 0 < b) : div a b = .ok (a / b) := if_neg (Nat.pos_iff_ne_zero.mp h)

theorem cast_of_lt (h : a < 2 ^ w) : cast w a = .ok a := if_pos h

theorem divideAndRoundUp_of_pos (h : 0 < b) : divideAndRoundUp a b = .ok (roundUpDiv a b) :=
  if_neg (Nat.pos_iff_ne_zero.mp h)

theorem assert_of {p : Prop} [Decidable p] {code : ℕ} (h : p) : assert p code = .ok () := if_pos h

theorem take_of_lt {α : Type} {v : List α} {i : ℕ} (h : i < v.length) : take v i = .ok v[i] := by
  simp [take, List.getElem?_eq_getElem h]

theorem borrow_of_lt {α : Type} {v : List α} {i : ℕ} (h : i < v.length) : borrow v i = .ok v[i] := by
  simp [borrow, List.getElem?_eq_getElem h]

theorem modify_of_lt {α : Type} {v : List α} {i : ℕ} {f : α → α} (h : i < v.length) :
    modify v i f = .ok (v.modify i f) := if_pos h

end Succeeds

/-! ### What a result that did not abort says -/

section Inversion

variable {w a b c : ℕ}

theorem eq_of_add_eq_ok (h : add w a b = .ok c) : a + b < 2 ^ w ∧ c = a + b := by
  unfold add at h
  split_ifs at h with hlt
  · exact ⟨hlt, (Except.ok.inj h).symm⟩

theorem eq_of_sub_eq_ok (h : sub a b = .ok c) : b ≤ a ∧ c = a - b := by
  unfold sub at h
  split_ifs at h with hle
  · exact ⟨hle, (Except.ok.inj h).symm⟩

theorem add_eq_ok_iff : add w a b = .ok c ↔ a + b < 2 ^ w ∧ c = a + b :=
  ⟨eq_of_add_eq_ok, fun ⟨h, hc⟩ => hc ▸ add_of_lt h⟩

theorem sub_eq_ok_iff : sub a b = .ok c ↔ b ≤ a ∧ c = a - b :=
  ⟨eq_of_sub_eq_ok, fun ⟨h, hc⟩ => hc ▸ sub_of_le h⟩

theorem eq_of_mul_eq_ok (h : mul w a b = .ok c) : c = a * b := by
  unfold mul at h
  split_ifs at h
  · exact (Except.ok.inj h).symm

theorem eq_of_div_eq_ok (h : div a b = .ok c) : 0 < b ∧ c = a / b := by
  unfold div at h
  split_ifs at h with hzero
  · exact ⟨Nat.pos_of_ne_zero hzero, (Except.ok.inj h).symm⟩

theorem eq_of_cast_eq_ok (h : cast w a = .ok c) : c = a := by
  unfold cast at h
  split_ifs at h
  · exact (Except.ok.inj h).symm

theorem of_assert_eq_ok {p : Prop} [Decidable p] {code : ℕ} {u : Unit} (h : assert p code = .ok u) : p := by
  unfold assert at h
  split_ifs at h with hp
  · exact hp

theorem assert_eq_ok_iff {p : Prop} [Decidable p] {code : ℕ} {u : Unit} : assert p code = .ok u ↔ p :=
  ⟨of_assert_eq_ok, fun h => assert_of h⟩

theorem eq_of_take_eq_ok {α : Type} {v : List α} {i : ℕ} {a : α} (h : take v i = .ok a) :
    ∃ hi : i < v.length, v[i] = a := by
  unfold take at h
  split at h
  · next a' ha' =>
    obtain ⟨hi, heq⟩ := List.getElem?_eq_some_iff.mp ha'
    exact ⟨hi, heq.trans (Except.ok.inj h)⟩
  · cases h

end Inversion

/-! ### Rounding up -/

theorem le_mul_roundUpDiv {x y : ℕ} (hy : 0 < y) : x ≤ y * roundUpDiv x y := by
  have hdiv := Nat.div_add_mod x y
  have hmod := Nat.mod_lt x hy
  unfold roundUpDiv
  split_ifs with hzero <;> grind

theorem mul_roundUpDiv_lt {x y : ℕ} (hy : 0 < y) : y * roundUpDiv x y < x + y := by
  have hdiv := Nat.div_add_mod x y
  have hmod := Nat.mod_lt x hy
  unfold roundUpDiv
  split_ifs with hzero <;> grind

theorem roundUpDiv_le {x y : ℕ} (hy : 0 < y) : roundUpDiv x y ≤ x := by
  have hdiv := Nat.div_add_mod x y
  unfold roundUpDiv
  split_ifs with hzero
  · exact Nat.div_le_self x y
  · -- a remainder is left, so the divisor is at least two and the quotient below `x`
    have hy2 : 1 < y := by
      by_contra hle
      have hy1 : y = 1 := by omega
      exact hzero (hy1 ▸ Nat.mod_one x)
    have hx : 0 < x := Nat.pos_of_ne_zero fun hx => hzero (hx ▸ Nat.zero_mod y)
    have hlt := Nat.div_lt_self hx hy2
    omega

/-! ### Rounding down: shares against a balance

A pool that issues shares against the balance it holds converts with
`amount * shares / balance`, rounded down. Rounding each holder's part down
never hands out more than rounding the whole, and a pool that rescales its
share supply to a deposit keeps room for the shares the deposit is owed at
the rescaled rate. -/

theorem sum_map_div_le {α : Type} (l : List α) (f : α → ℕ) (d : ℕ) :
    (l.map fun x => f x / d).sum ≤ (l.map f).sum / d := by
  induction l with
  | nil => simp
  | cons x l ih =>
    simp only [List.map_cons, List.sum_cons]
    calc f x / d + (l.map fun x => f x / d).sum ≤ f x / d + (l.map f).sum / d := Nat.add_le_add_left ih _
      _ ≤ (f x + (l.map f).sum) / d := Nat.div_add_div_le_add_div

theorem add_mul_div_le_of_rescale {s a d : ℕ} (ha : 0 < a) :
    s ≤ s * (a + d) / a ∧ s + s * (a + d) / a * d / (a + d) ≤ s * (a + d) / a := by
  generalize hs' : s * (a + d) / a = s'
  have hlow : s ≤ s' := hs' ▸ (Nat.le_div_iff_mul_le ha).mpr (Nat.mul_le_mul_left s (Nat.le_add_right a d))
  have hup : s * (a + d) < s' * a + a := hs' ▸ Nat.lt_div_mul_add ha
  have hsplit : s' * (a + d) = s' * a + s' * d := Nat.mul_add s' a d
  -- `(s' - s + 1) + s = s' + 1`, multiplied out
  have hback : (s' - s + 1) * (a + d) + s * (a + d) = s' * (a + d) + (a + d) := by
    have hsum : s' - s + 1 + s = s' + 1 := by omega
    rw [← Nat.add_mul, hsum, Nat.add_mul, one_mul]
  have hlt : s' * d / (a + d) < s' - s + 1 := (Nat.div_lt_iff_lt_mul (by omega)).mpr (by omega)
  exact ⟨hlow, by omega⟩

/-! ### The vector macros -/

section Take

variable {α β : Type} {v : List α} {ix : List ℕ} {f : β → ℕ → α → Except Abort β}

theorem takeFoldWithIx_cons {i : ℕ} {init : β} :
    takeFoldWithIx v (i :: ix) init f = (do takeFoldWithIx v ix (← f init i (← take v i)) f) := by
  simp only [takeFoldWithIx, List.foldlM_cons, bind_assoc]

theorem takeFoldRef_add_eq_ok {w : ℕ} {g : α → ℕ} {c : α → Except Abort Unit} {f : ℕ → α → Except Abort ℕ}
    (hf : ∀ acc a, f acc a = (do c a; add w acc (g a))) :
    ∀ {l : List ℕ} {init r : ℕ}, init < 2 ^ w →
      (takeFoldRef v l init f = .ok r ↔
        (∀ i ∈ l, ∃ hi : i < v.length, c v[i] = .ok ()) ∧
          init + (l.map fun i => (v[i]?.map g).getD 0).sum < 2 ^ w ∧
          r = init + (l.map fun i => (v[i]?.map g).getD 0).sum)
  | [], init, r, hinit => by
    simp only [takeFoldRef, takeFoldWithIx, List.foldlM_nil, except_pure_eq_ok, List.not_mem_nil,
      IsEmpty.forall_iff, implies_true, List.map_nil, List.sum_nil, add_zero, hinit, true_and]
    exact eq_comm
  | i :: l, init, r, hinit => by
    unfold takeFoldRef at *
    rw [takeFoldWithIx_cons, except_bind_eq_ok, List.forall_mem_cons]
    constructor
    · rintro ⟨a, ha, h⟩
      obtain ⟨hi, rfl⟩ := eq_of_take_eq_ok ha
      rw [except_bind_eq_ok] at h
      obtain ⟨acc, hacc, hrest⟩ := h
      rw [hf, except_bind_eq_ok] at hacc
      obtain ⟨⟨⟩, hcheck, hadd⟩ := hacc
      obtain ⟨hfits, rfl⟩ := eq_of_add_eq_ok hadd
      obtain ⟨hchecks, hsum, rfl⟩ := (takeFoldRef_add_eq_ok hf hfits).mp hrest
      simp only [List.map_cons, List.sum_cons, List.getElem?_eq_getElem hi, Option.map_some, Option.getD_some]
      exact ⟨⟨⟨hi, hcheck⟩, hchecks⟩, by omega, by omega⟩
    · rintro ⟨⟨⟨hi, hcheck⟩, hchecks⟩, hsum, rfl⟩
      simp only [List.map_cons, List.sum_cons, List.getElem?_eq_getElem hi, Option.map_some,
        Option.getD_some] at hsum ⊢
      have hfits : init + g v[i] < 2 ^ w := by omega
      have hstep : f init v[i] = .ok (init + g v[i]) := by rw [hf, hcheck, except_ok_bind, add_of_lt hfits]
      refine ⟨v[i], take_of_lt hi, ?_⟩
      rw [hstep, except_ok_bind]
      exact (takeFoldRef_add_eq_ok hf hfits).mpr ⟨hchecks, by omega, by omega⟩

end Take

end Iota.Lib.Move
