import Mathlib

/-! A multiset hash as what it hashes: how many times each element was inserted, less the
times it was removed.  Inserting and removing commute and undo each other, and the union
of two hashes adds their counts, so a hash is a function to the integers; a count is
negative where more copies were removed than inserted.  Two hashes are equal when every
element has the same count; collisions of the underlying hash are not modelled. -/

namespace Iota.Lib

structure MultisetHash (α : Type*) where
  count : α → ℤ

namespace MultisetHash

variable {α : Type*}

@[ext] theorem ext {h g : MultisetHash α} (hcount : ∀ a, h.count a = g.count a) : h = g := by
  cases h
  cases g
  congr
  funext a
  exact hcount a

/-- The hash of the empty multiset, `Default::default`. -/
def empty : MultisetHash α := ⟨fun _ => 0⟩

def union (h g : MultisetHash α) : MultisetHash α := ⟨fun x => h.count x + g.count x⟩

@[simp] theorem count_empty (x : α) : (empty : MultisetHash α).count x = 0 := rfl

@[simp] theorem count_union (h g : MultisetHash α) (x : α) : (h.union g).count x = h.count x + g.count x :=
  rfl

theorem union_assoc (h g k : MultisetHash α) : (h.union g).union k = h.union (g.union k) :=
  ext fun x => add_assoc (h.count x) (g.count x) (k.count x)

@[simp] theorem empty_union (h : MultisetHash α) : empty.union h = h := ext fun x => zero_add (h.count x)

@[simp] theorem union_empty (h : MultisetHash α) : h.union empty = h := ext fun x => add_zero (h.count x)

variable [DecidableEq α]

def insert (h : MultisetHash α) (a : α) : MultisetHash α :=
  ⟨fun x => h.count x + if x = a then 1 else 0⟩

def remove (h : MultisetHash α) (a : α) : MultisetHash α :=
  ⟨fun x => h.count x - if x = a then 1 else 0⟩

def insertAll (h : MultisetHash α) (as : List α) : MultisetHash α := as.foldl insert h

def removeAll (h : MultisetHash α) (as : List α) : MultisetHash α := as.foldl remove h

@[simp] theorem count_insert (h : MultisetHash α) (a x : α) :
    (h.insert a).count x = h.count x + if x = a then 1 else 0 := rfl

@[simp] theorem count_remove (h : MultisetHash α) (a x : α) :
    (h.remove a).count x = h.count x - if x = a then 1 else 0 := rfl

theorem count_cons_eq (a x : α) (as : List α) :
    ((a :: as).count x : ℤ) = (if x = a then 1 else 0) + as.count x := by
  rw [List.count_cons]
  by_cases hxa : x = a
  · subst hxa
    simp only [beq_self_eq_true, if_true]
    push_cast
    omega
  · simp [hxa, Ne.symm hxa]

@[simp] theorem count_insertAll (x : α) : ∀ (h : MultisetHash α) (as : List α),
    (h.insertAll as).count x = h.count x + as.count x
  | h, [] => by simp [insertAll]
  | h, a :: as => by
    rw [insertAll, List.foldl_cons, ← insertAll, count_insertAll x (h.insert a) as, count_insert,
      count_cons_eq]
    omega

@[simp] theorem count_removeAll (x : α) : ∀ (h : MultisetHash α) (as : List α),
    (h.removeAll as).count x = h.count x - as.count x
  | h, [] => by simp [removeAll]
  | h, a :: as => by
    rw [removeAll, List.foldl_cons, ← removeAll, count_removeAll x (h.remove a) as, count_remove,
      count_cons_eq]
    omega

end MultisetHash

end Iota.Lib
