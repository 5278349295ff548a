import Mathlib

/-! Byte strings in the order of a bytewise comparator: byte by byte, with a proper
prefix first (`List.Lex` on `Fin 256`).  Byte strings of one length are ordered as
the numbers they spell in big-endian order, and a fixed-width big-endian integer is
ordered as its value. -/

namespace Iota.Lib

/-- A byte string read as a big-endian number. -/
def beValue : List (Fin 256) → ℕ
  | [] => 0
  | b :: bs => b * 256 ^ bs.length + beValue bs

/-- `n` in `width` bytes, the most significant first (the low `width` bytes of `n`). -/
def beBytes : ℕ → ℕ → List (Fin 256)
  | 0, _ => []
  | width + 1, n => ⟨n / 256 ^ width % 256, Nat.mod_lt _ (by decide)⟩ :: beBytes width n

@[simp] theorem length_beBytes (width n : ℕ) : (beBytes width n).length = width := by
  induction width <;> simp [beBytes, *]

theorem beValue_lt : ∀ v : List (Fin 256), beValue v < 256 ^ v.length
  | [] => by simp [beValue]
  | b :: bs => by
    have hb : (b : ℕ) ≤ 255 := Nat.le_of_lt_succ b.isLt
    have hbs := beValue_lt bs
    calc beValue (b :: bs) = b * 256 ^ bs.length + beValue bs := rfl
      _ < 255 * 256 ^ bs.length + 256 ^ bs.length := Nat.add_lt_add_of_le_of_lt (Nat.mul_le_mul_right _ hb) hbs
      _ = 256 ^ (b :: bs).length := by rw [List.length_cons, pow_succ]; ring

theorem beValue_append (u w : List (Fin 256)) : beValue (u ++ w) = beValue u * 256 ^ w.length + beValue w := by
  induction u with
  | nil => simp [beValue]
  | cons b bs ih =>
    simp only [List.cons_append, beValue, List.length_append, ih, pow_add]
    ring

theorem beValue_beBytes (width n : ℕ) : beValue (beBytes width n) = n % 256 ^ width := by
  induction width with
  | zero => simp [beBytes, beValue, Nat.mod_one]
  | succ width ih =>
    rw [beBytes, beValue, length_beBytes, ih]
    dsimp only
    -- the top byte and the bytes below it
    rw [pow_succ, Nat.mod_mul]
    ring

theorem mul_add_lt_mul_add_iff {q x y : ℕ} (b c : ℕ) (hx : x < q) (hy : y < q) :
    b * q + x < c * q + y ↔ b < c ∨ b = c ∧ x < y := by
  rcases lt_trichotomy b c with hbc | rfl | hbc
  · have : b * q + x < c * q + y :=
      calc b * q + x < (b + 1) * q := by rw [Nat.succ_mul]; omega
        _ ≤ c * q := Nat.mul_le_mul_right q hbc
        _ ≤ c * q + y := Nat.le_add_right _ _
    exact ⟨fun _ => .inl hbc, fun _ => this⟩
  · simp
  · have : c * q + y < b * q + x :=
      calc c * q + y < (c + 1) * q := by rw [Nat.succ_mul]; omega
        _ ≤ b * q := Nat.mul_le_mul_right q hbc
        _ ≤ b * q + x := Nat.le_add_right _ _
    constructor
    · intro h
      omega
    · rintro (h | ⟨h, -⟩) <;> omega

theorem lt_iff_beValue_lt : ∀ {v w : List (Fin 256)}, v.length = w.length → (v < w ↔ beValue v < beValue w)
  | [], [], _ => by simp [beValue]
  | b :: bs, c :: cs, h => by
    have hlen : bs.length = cs.length := by simpa using h
    rw [List.cons_lt_cons_iff, lt_iff_beValue_lt hlen, beValue, beValue, hlen,
      mul_add_lt_mul_add_iff _ _ (hlen ▸ beValue_lt bs : beValue bs < 256 ^ cs.length) (beValue_lt cs),
      Fin.lt_def, Fin.val_eq_val]

theorem le_iff_beValue_le {v w : List (Fin 256)} (h : v.length = w.length) : v ≤ w ↔ beValue v ≤ beValue w := by
  rw [← not_lt, ← not_lt, lt_iff_beValue_lt h.symm]

theorem beBytes_lt_beBytes_iff {width a b : ℕ} (ha : a < 256 ^ width) (hb : b < 256 ^ width) :
    beBytes width a < beBytes width b ↔ a < b := by
  rw [lt_iff_beValue_lt (by simp), beValue_beBytes, beValue_beBytes, Nat.mod_eq_of_lt ha, Nat.mod_eq_of_lt hb]

theorem beBytes_le_beBytes_iff {width a b : ℕ} (ha : a < 256 ^ width) (hb : b < 256 ^ width) :
    beBytes width a ≤ beBytes width b ↔ a ≤ b := by
  rw [← not_lt, ← not_lt, beBytes_lt_beBytes_iff hb ha]

theorem append_lt_append_iff {α : Type*} [LinearOrder α] :
    ∀ {a b : List α} (c d : List α), a.length = b.length → (a ++ c < b ++ d ↔ a < b ∨ a = b ∧ c < d)
  | [], [], c, d, _ => by simp
  | x :: a, y :: b, c, d, h => by
    have hlen : a.length = b.length := by simpa using h
    simp only [List.cons_append, List.cons_lt_cons_iff, append_lt_append_iff c d hlen, List.cons.injEq]
    constructor
    · rintro (hxy | ⟨rfl, hab | ⟨rfl, hcd⟩⟩)
      · exact .inl (.inl hxy)
      · exact .inl (.inr ⟨rfl, hab⟩)
      · exact .inr ⟨⟨rfl, rfl⟩, hcd⟩
    · rintro ((hxy | ⟨rfl, hab⟩) | ⟨⟨rfl, rfl⟩, hcd⟩)
      · exact .inl hxy
      · exact .inr ⟨rfl, .inl hab⟩
      · exact .inr ⟨rfl, .inr ⟨rfl, hcd⟩⟩

end Iota.Lib
