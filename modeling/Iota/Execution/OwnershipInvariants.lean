import Mathlib
import Iota.Execution.TemporaryStore
import Iota.Lib.Except

/-! `TemporaryStore::check_ownership_invariants`
(`iota-execution/latest/iota-adapter/src/temporary_store.rs`): every object a
transaction modified must be covered, through the containers of wrapped objects
and the owners objects had before the transaction, by a mutable input that is
shared or owned by the sender.  The inputs are checked first: each one but the
gas coins must be owned by the sender, shared or immutable.  Then a stack of the
modified objects is worked off, and an object is marked authenticated before the
object covering it is checked.

The backing store is read only for the owner of an object's version before the
transaction: it is an `ObjectMap` of those versions, and its storage errors (the
`?` of `get_object`) are left out.  Of the gas charger only its gas coins are read. -/

namespace Iota.Execution

open Iota.Core Iota.Lib

/-- The panics of `check_ownership_invariants`. -/
inductive OwnershipPanic
  /-- "Input object not owned by sender" -/
  | inputNotOwnedBySender
  /-- "Input objects must be address owned, shared, or immutable" -/
  | inputObjectOwned
  /-- "Failed to load object ...": neither wrapped nor in the store -/
  | failedToLoadObject (id : ℕ)
  /-- "Unauthenticated root at ..." -/
  | unauthenticatedRoot (id : ℕ)
  /-- "Immutable objects cannot be written, except for IOTA Framework/Move stdlib
  upgrades at epoch change boundaries" -/
  | immutableWritten
  /-- "Only system packages can be upgraded" -/
  | notSystemPackage
  deriving DecidableEq, Repr

/-- `SYSTEM_PACKAGE_ADDRESSES` (`iota-types/src/lib.rs`). -/
def SYSTEM_PACKAGE_ADDRESSES : List ℕ := [0x1, 0x2, 0x3, 0xb, 0x107a]

def isSystemPackage (addr : ℕ) : Bool := addr ∈ SYSTEM_PACKAGE_ADDRESSES

/-- A `BTreeMap<ObjectID, ObjectID>`. -/
structure IdMap where
  ids : Finset ℕ
  get : ℕ → ℕ

def IdMap.get? (m : IdMap) (id : ℕ) : Option ℕ := if id ∈ m.ids then some (m.get id) else none

/-- What the check reads: the temporary store, its `wrapped_object_containers`,
and the objects of its backing store as they were before the transaction. -/
structure OwnershipState where
  store : TemporaryStore
  wrappedObjectContainers : IdMap
  backingStore : ObjectMap

section Check

variable (t : OwnershipState) (sender : ℕ) (gasObjs mutableInputs : Finset ℕ) (isEpochChange : Bool)

/-- The closure of the `filter_map` over the input objects: a gas coin is left
out, an input owned by the sender or shared is a root, an immutable one is not,
and one owned by an object cannot be an input. -/
def inputRoot (id : ℕ) (owner : Owner) : Except OwnershipPanic (Option ℕ) :=
  if id ∈ gasObjs then pure none
  else
    match owner with
    | .addressOwner a => if sender = a then pure (some id) else throw .inputNotOwnedBySender
    | .shared _ => pure (some id)
    | .immutable => pure none
    | .objectOwner _ => throw .inputObjectOwned

/-- The roots, the mutable inputs among those `inputRoot` keeps. -/
def authenticatedForMutation : Except OwnershipPanic (Finset ℕ) := do
  let roots ← (ascending t.store.inputObjects.ids).mapM fun id =>
    inputRoot sender gasObjs id (t.store.inputObjects.get id).owner
  pure (roots.reduceOption.filter (· ∈ mutableInputs)).toFinset

/-- The object that must be authenticated for `toAuthenticate` to be: its
container if it is wrapped, else its owner before the transaction; `none` for a
system package upgraded at an epoch change, which the loop skips. -/
def parentOf (toAuthenticate : ℕ) : Except OwnershipPanic (Option ℕ) :=
  match t.wrappedObjectContainers.get? toAuthenticate with
  | some containerId => pure (some containerId)
  | none =>
    match t.backingStore.get? toAuthenticate with
    | none => throw (.failedToLoadObject toAuthenticate)
    | some oldObj =>
      match oldObj.owner with
      | .objectOwner parent => pure (some parent)
      -- a `Receiving` object: the address owning it is an object
      | .addressOwner parent => pure (some parent)
      | .shared _ => throw (.unauthenticatedRoot toAuthenticate)
      | .immutable =>
        if !isEpochChange then throw .immutableWritten
        else if !isSystemPackage toAuthenticate then throw .notSystemPackage
        else pure none

/-- One round of the `while let` loop on the popped object: an object already
authenticated is dropped; another is marked authenticated and its parent pushed. -/
def authenticateRound (authenticated : Finset ℕ) (toAuthenticate : ℕ) (rest : List ℕ) :
    Except OwnershipPanic (Finset ℕ × List ℕ) :=
  if toAuthenticate ∈ authenticated then pure (authenticated, rest)
  else do
    match ← parentOf t isEpochChange toAuthenticate with
    | none => pure (authenticated, rest)
    | some parent => pure (insert toAuthenticate authenticated, parent :: rest)

/-- The loop over the stack `objects_to_authenticate`, its top first; `none` where
the fuel runs out. -/
def authenticateLoop : ℕ → Finset ℕ → List ℕ → Option (Except OwnershipPanic Unit)
  | _, _, [] => some (pure ())
  | 0, _, _ :: _ => none
  | fuel + 1, authenticated, toAuthenticate :: rest =>
    match authenticateRound t isEpochChange authenticated toAuthenticate rest with
    | .error e => some (.error e)
    | .ok (authenticated', objects) => authenticateLoop fuel authenticated' objects

end Check

/-- The objects that can have a parent: those wrapped, and those in the store. -/
def OwnershipState.coverable (t : OwnershipState) : Finset ℕ := t.wrappedObjectContainers.ids ∪ t.backingStore.ids

/-- `check_ownership_invariants`, given the ids of `gas_charger.gas_coins()`, with
as much fuel as its loop can use: each round drops an object or marks one that
can have a parent. -/
def checkOwnershipInvariants (t : OwnershipState) (sender : ℕ) (gasCoins : List ObjectRef)
    (mutableInputs : Finset ℕ) (isEpochChange : Bool) : Option (Except OwnershipPanic Unit) :=
  let gasObjs := (gasCoins.map (·.id)).toFinset
  match authenticatedForMutation t sender gasObjs mutableInputs with
  | .error e => some (.error e)
  | .ok authenticatedForMutation =>
    -- a vector popped from its end: the largest id comes first
    let objectsToAuthenticate := ((ascending t.store.modifiedObjects).filter (· ∉ gasObjs)).reverse
    authenticateLoop t isEpochChange (t.coverable.card + objectsToAuthenticate.length + 1) authenticatedForMutation
      objectsToAuthenticate

/-! ### What the check accepts -/

/-- An owner that authenticates what it covers: the sender, or a shared object. -/
def rootOwner (sender : ℕ) : Owner → Bool
  | .addressOwner a => decide (sender = a)
  | .shared _ => true
  | _ => false

/-- An owner an input may have: the sender, shared, or none at all. -/
def acceptedOwner (sender : ℕ) : Owner → Bool
  | .immutable => true
  | owner => rootOwner sender owner

namespace OwnershipState

variable (t : OwnershipState)

/-- `p` covers `y`: `y` is wrapped in `p`, or, not wrapped, was owned before the
transaction by the object or the address `p`.  Every cover is a link of the
store's ownership relation or of the wrapped containers, so where those links
have no cycle, neither do covers. -/
def Covers (y p : ℕ) : Prop :=
  t.wrappedObjectContainers.get? y = some p ∨
    t.wrappedObjectContainers.get? y = none ∧
      ∃ o, t.backingStore.get? y = some o ∧ (o.owner = .objectOwner p ∨ o.owner = .addressOwner p)

def Acyclic : Prop := ∀ y, ¬ Relation.TransGen t.Covers y y

/-- A system package, immutable before the transaction, written at an epoch change. -/
def SystemUpgrade (isEpochChange : Bool) (y : ℕ) : Prop :=
  t.wrappedObjectContainers.get? y = none ∧ (∃ o, t.backingStore.get? y = some o ∧ o.owner = .immutable) ∧
    isEpochChange = true ∧ isSystemPackage y = true

/-- Every input but the gas coins is owned by the sender, shared or immutable. -/
def InputsAccepted (sender : ℕ) (gasObjs : Finset ℕ) : Prop :=
  ∀ id ∈ t.store.inputObjects.ids, id ∉ gasObjs → acceptedOwner sender (t.store.inputObjects.get id).owner = true

/-- The mutable inputs, gas coins apart, that are owned by the sender or shared. -/
def authenticatedRoots (sender : ℕ) (gasObjs mutableInputs : Finset ℕ) : Finset ℕ :=
  t.store.inputObjects.ids.filter fun id =>
    id ∉ gasObjs ∧ id ∈ mutableInputs ∧ rootOwner sender (t.store.inputObjects.get id).owner = true

/-- Following covers, `y` comes to a root or to a system package upgraded at an
epoch change. -/
def Reaches (roots : Finset ℕ) (isEpochChange : Bool) (y : ℕ) : Prop :=
  ∃ z, Relation.ReflTransGen t.Covers y z ∧ (z ∈ roots ∨ t.SystemUpgrade isEpochChange z)

end OwnershipState

section Spec

variable {t : OwnershipState} {sender : ℕ} {gasObjs mutableInputs : Finset ℕ} {e : Bool}

theorem inputRoot_eq_ok {id : ℕ} {owner : Owner} {r : Option ℕ} :
    inputRoot sender gasObjs id owner = .ok r ↔
      (id ∈ gasObjs ∨ acceptedOwner sender owner = true) ∧
        (if id ∉ gasObjs ∧ rootOwner sender owner = true then some id else none) = r := by
  unfold inputRoot
  by_cases hgas : id ∈ gasObjs
  · simp [hgas]
  · cases owner with
    | addressOwner a => by_cases ha : sender = a <;> simp [hgas, ha, acceptedOwner, rootOwner]
    | objectOwner a => simp [hgas, acceptedOwner, rootOwner]
    | shared v => simp [hgas, acceptedOwner, rootOwner]
    | immutable => simp [hgas, acceptedOwner, rootOwner]

theorem authenticatedForMutation_eq_ok {A : Finset ℕ} :
    authenticatedForMutation t sender gasObjs mutableInputs = .ok A ↔
      t.InputsAccepted sender gasObjs ∧ A = t.authenticatedRoots sender gasObjs mutableInputs := by
  let g : ℕ → Option ℕ := fun id =>
    if id ∉ gasObjs ∧ rootOwner sender (t.store.inputObjects.get id).owner = true then some id else none
  have hroots : (((ascending t.store.inputObjects.ids).map g).reduceOption.filter (· ∈ mutableInputs)).toFinset =
      t.authenticatedRoots sender gasObjs mutableInputs := by
    ext x
    simp only [List.mem_toFinset, List.mem_filter, List.reduceOption_mem_iff, List.mem_map, mem_ascending,
      OwnershipState.authenticatedRoots, Finset.mem_filter, decide_eq_true_eq, g]
    constructor
    · rintro ⟨⟨id, hid, hgid⟩, hmut⟩
      split_ifs at hgid with hcond
      cases hgid
      exact ⟨hid, hcond.1, hmut, hcond.2⟩
    · rintro ⟨hid, hgas, hmut, hroot⟩
      exact ⟨⟨x, hid, by rw [if_pos ⟨hgas, hroot⟩]⟩, hmut⟩
  unfold authenticatedForMutation
  rw [except_bind_eq_ok]
  constructor
  · rintro ⟨roots, hmap, hA⟩
    have hok := exists_ok_of_mapM_except_eq_ok hmap
    have heach : ∀ id ∈ ascending t.store.inputObjects.ids,
        inputRoot sender gasObjs id (t.store.inputObjects.get id).owner = .ok (g id) := by
      intro id hid
      obtain ⟨b, hb⟩ := hok id hid
      rw [hb, ← (Iff.mp inputRoot_eq_ok hb).2]
    rw [mapM_except_eq_ok_map heach, Except.ok.injEq] at hmap
    refine ⟨fun id hid hgas => ?_, by rw [← except_pure_eq_ok.mp hA, ← hmap, hroots]⟩
    obtain ⟨b, hb⟩ := hok id (mem_ascending.mpr hid)
    exact (Iff.mp inputRoot_eq_ok hb).1.resolve_left hgas
  · rintro ⟨haccepted, rfl⟩
    refine ⟨_, mapM_except_eq_ok_map fun id hid => Iff.mpr inputRoot_eq_ok ⟨?_, rfl⟩, by rw [hroots]; rfl⟩
    by_cases hgas : id ∈ gasObjs
    · exact .inl hgas
    · exact .inr (haccepted id (mem_ascending.mp hid) hgas)

theorem parentOf_eq_ok_some {y p : ℕ} : parentOf t e y = .ok (some p) ↔ t.Covers y p := by
  unfold parentOf OwnershipState.Covers
  cases hw : t.wrappedObjectContainers.get? y with
  | some c => simp
  | none =>
    cases hs : t.backingStore.get? y with
    | none => simp
    | some o =>
      simp only [Option.some.injEq, exists_eq_left', true_and, reduceCtorEq, false_or]
      cases o.owner with
      | objectOwner q => simp
      | addressOwner q => simp
      | shared v => simp
      | immutable => split_ifs <;> simp

theorem parentOf_eq_ok_none {y : ℕ} : parentOf t e y = .ok none ↔ t.SystemUpgrade e y := by
  unfold parentOf OwnershipState.SystemUpgrade
  cases hw : t.wrappedObjectContainers.get? y with
  | some c => simp
  | none =>
    cases hs : t.backingStore.get? y with
    | none => simp
    | some o =>
      simp only [Option.some.injEq, exists_eq_left', true_and]
      cases o.owner with
      | objectOwner q => simp
      | addressOwner q => simp
      | shared v => simp
      | immutable => cases e <;> cases isSystemPackage y <;> simp

theorem mem_coverable_of_covers {y p : ℕ} (h : t.Covers y p) : y ∈ t.coverable := by
  rcases h with hw | ⟨-, o, hs, -⟩
  · unfold IdMap.get? at hw
    split_ifs at hw with hy
    exact Finset.mem_union_left _ hy
  · exact Finset.mem_union_right _ ((ObjectMap.get?_eq_some _).mp hs).1

theorem authenticateRound_eq_ok {A A' : Finset ℕ} {y : ℕ} {rest w' : List ℕ} :
    authenticateRound t e A y rest = .ok (A', w') ↔
      (y ∈ A ∧ A' = A ∧ w' = rest) ∨ (y ∉ A ∧ t.SystemUpgrade e y ∧ A' = A ∧ w' = rest) ∨
        (y ∉ A ∧ ∃ p, t.Covers y p ∧ A' = insert y A ∧ w' = p :: rest) := by
  unfold authenticateRound
  by_cases hy : y ∈ A
  · rw [if_pos hy, except_pure_eq_ok, Prod.mk.injEq]
    constructor
    · rintro ⟨rfl, rfl⟩
      exact .inl ⟨hy, rfl, rfl⟩
    · rintro (⟨-, rfl, rfl⟩ | ⟨hy', -⟩ | ⟨hy', -⟩)
      · exact ⟨rfl, rfl⟩
      · exact absurd hy hy'
      · exact absurd hy hy'
  · rw [if_neg hy, except_bind_eq_ok]
    constructor
    · rintro ⟨r, hr, hround⟩
      cases r with
      | none =>
        obtain ⟨rfl, rfl⟩ := Prod.mk.inj (except_pure_eq_ok.mp hround)
        exact .inr (.inl ⟨hy, Iff.mp parentOf_eq_ok_none hr, rfl, rfl⟩)
      | some p =>
        obtain ⟨rfl, rfl⟩ := Prod.mk.inj (except_pure_eq_ok.mp hround)
        exact .inr (.inr ⟨hy, p, Iff.mp parentOf_eq_ok_some hr, rfl, rfl⟩)
    · rintro (⟨hyA, -⟩ | ⟨-, hup, rfl, rfl⟩ | ⟨-, p, hcov, rfl, rfl⟩)
      · exact absurd hyA hy
      · exact ⟨none, Iff.mpr parentOf_eq_ok_none hup, rfl⟩
      · exact ⟨some p, Iff.mpr parentOf_eq_ok_some hcov, rfl⟩

theorem authenticateRound_measure {A A' : Finset ℕ} {y : ℕ} {rest w' : List ℕ}
    (h : authenticateRound t e A y rest = .ok (A', w')) :
    (t.coverable \ A').card + w'.length < (t.coverable \ A).card + (y :: rest).length := by
  rcases Iff.mp authenticateRound_eq_ok h with ⟨-, rfl, rfl⟩ | ⟨-, -, rfl, rfl⟩ | ⟨hy, p, hcov, rfl, rfl⟩
  · simp
  · simp
  · have hmem : y ∈ t.coverable \ A := Finset.mem_sdiff.mpr ⟨mem_coverable_of_covers hcov, hy⟩
    have hpos := Finset.card_pos.mpr ⟨y, hmem⟩
    rw [Finset.sdiff_insert, Finset.card_erase_of_mem hmem, List.length_cons, List.length_cons]
    omega

end Spec

/-! ### The loop over whole runs -/

section Run

variable (t : OwnershipState) (e : Bool)

theorem authenticateLoop_isSome :
    ∀ fuel A w, (t.coverable \ A).card + w.length < fuel → (authenticateLoop t e fuel A w).isSome
  | fuel, _, [], _ => by cases fuel <;> rfl
  | 0, _, _ :: _, h => absurd h (Nat.not_lt_zero _)
  | fuel + 1, A, y :: rest, h => by
    simp only [authenticateLoop]
    split
    · rfl
    · next A' w' hround =>
      have hlt := authenticateRound_measure hround
      exact authenticateLoop_isSome fuel A' w' (by omega)

theorem authenticateLoop_inv (P : Finset ℕ → List ℕ → Prop)
    (hP : ∀ A y rest A' w', P A (y :: rest) → authenticateRound t e A y rest = .ok (A', w') → P A' w') :
    ∀ fuel A w, P A w → authenticateLoop t e fuel A w = some (.ok ()) → ∃ A', P A' []
  | _, A, [], hp, _ => ⟨A, hp⟩
  | 0, _, _ :: _, _, h => by simp [authenticateLoop] at h
  | fuel + 1, A, y :: rest, hp, h => by
    simp only [authenticateLoop] at h
    split at h
    · simp at h
    · next A' w' hround => exact authenticateLoop_inv P hP fuel A' w' (hP A y rest A' w' hp hround) h

theorem authenticateLoop_eq_ok (P : Finset ℕ → List ℕ → Prop)
    (hP : ∀ A y rest, P A (y :: rest) → ∃ A' w', authenticateRound t e A y rest = .ok (A', w') ∧ P A' w') :
    ∀ fuel A w, P A w → (t.coverable \ A).card + w.length < fuel → authenticateLoop t e fuel A w = some (.ok ())
  | fuel, _, [], _, _ => by cases fuel <;> rfl
  | 0, _, _ :: _, _, h => absurd h (Nat.not_lt_zero _)
  | fuel + 1, A, y :: rest, hp, hfuel => by
    obtain ⟨A', w', hround, hp'⟩ := hP A y rest hp
    have hlt := authenticateRound_measure hround
    simp only [authenticateLoop, hround]
    exact authenticateLoop_eq_ok P hP fuel A' w' hp' (by omega)

end Run

/-! ### Soundness and completeness -/

section Invariants

variable {t : OwnershipState} {roots : Finset ℕ} {e : Bool}

theorem OwnershipState.Reaches.of_reflTransGen {y u : ℕ} (hyu : Relation.ReflTransGen t.Covers y u)
    (hu : t.Reaches roots e u) : t.Reaches roots e y :=
  let ⟨z, huz, hz⟩ := hu
  ⟨z, hyu.trans huz, hz⟩

theorem settle_transGen {w w' : List ℕ} {y z : ℕ} (hw : ∀ u ∈ w, u ∈ w')
    (hy : t.Reaches roots e y ∨ ∃ u ∈ w', Relation.TransGen t.Covers y u)
    (hz : t.Reaches roots e z ∨ ∃ u ∈ y :: w, Relation.TransGen t.Covers z u) :
    t.Reaches roots e z ∨ ∃ u ∈ w', Relation.TransGen t.Covers z u := by
  rcases hz with hz | ⟨u, hu, hzu⟩
  · exact .inl hz
  rcases List.mem_cons.mp hu with rfl | hu
  · rcases hy with hy | ⟨u', hu', hyu'⟩
    · exact .inl (hy.of_reflTransGen hzu.to_reflTransGen)
    · exact .inr ⟨u', hu', hzu.trans hyu'⟩
  · exact .inr ⟨u, hw u hu, hzu⟩

theorem settle_reflTransGen {w w' : List ℕ} {y z : ℕ} (hw : ∀ u ∈ w, u ∈ w')
    (hy : t.Reaches roots e y ∨ ∃ u ∈ w', Relation.TransGen t.Covers y u)
    (hz : t.Reaches roots e z ∨ ∃ u ∈ y :: w, Relation.ReflTransGen t.Covers z u) :
    t.Reaches roots e z ∨ ∃ u ∈ w', Relation.ReflTransGen t.Covers z u := by
  rcases hz with hz | ⟨u, hu, hzu⟩
  · exact .inl hz
  rcases List.mem_cons.mp hu with rfl | hu
  · rcases hy with hy | ⟨u', hu', hyu'⟩
    · exact .inl (hy.of_reflTransGen hzu)
    · exact .inr ⟨u', hu', hzu.trans hyu'.to_reflTransGen⟩
  · exact .inr ⟨u, hw u hu, hzu⟩

variable (t roots e) in
/-- The loop invariant for soundness: an authenticated object reaches a root or
covers, through others, an object still to be checked; so does each target, if
it is not authenticated itself. -/
structure SoundInv (targets : List ℕ) (A : Finset ℕ) (w : List ℕ) : Prop where
  authenticated : ∀ y ∈ A, t.Reaches roots e y ∨ ∃ u ∈ w, Relation.TransGen t.Covers y u
  targets : ∀ x ∈ targets, x ∈ A ∨ t.Reaches roots e x ∨ ∃ u ∈ w, Relation.ReflTransGen t.Covers x u

theorem SoundInv.pop {targets : List ℕ} {A : Finset ℕ} {y : ℕ} {rest : List ℕ}
    (h : SoundInv t roots e targets A (y :: rest))
    (hy : t.Reaches roots e y ∨ ∃ u ∈ rest, Relation.TransGen t.Covers y u) :
    SoundInv t roots e targets A rest :=
  ⟨fun z hz => settle_transGen (fun _ => id) hy (h.authenticated z hz),
    fun x hx => (h.targets x hx).imp_right (settle_reflTransGen (fun _ => id) hy)⟩

theorem SoundInv.round (hacyclic : t.Acyclic) {targets : List ℕ} {A A' : Finset ℕ} {y : ℕ} {rest w' : List ℕ}
    (h : SoundInv t roots e targets A (y :: rest)) (hround : authenticateRound t e A y rest = .ok (A', w')) :
    SoundInv t roots e targets A' w' := by
  rcases Iff.mp authenticateRound_eq_ok hround with ⟨hyA, rfl, rfl⟩ | ⟨-, hup, rfl, rfl⟩ | ⟨-, p, hcov, rfl, rfl⟩
  · refine h.pop ?_
    rcases h.authenticated y hyA with hr | ⟨u, hu, hyu⟩
    · exact .inl hr
    · rcases List.mem_cons.mp hu with rfl | hu
      · exact absurd hyu (hacyclic u)
      · exact .inr ⟨u, hu, hyu⟩
  · exact h.pop (.inl ⟨y, .refl, .inr hup⟩)
  · -- `y` is marked, and waits on its parent
    have hy : t.Reaches roots e y ∨ ∃ u ∈ p :: rest, Relation.TransGen t.Covers y u :=
      .inr ⟨p, List.mem_cons_self, .single hcov⟩
    have hrest : ∀ u ∈ rest, u ∈ p :: rest := fun u hu => List.mem_cons_of_mem p hu
    refine ⟨fun z hz => ?_, fun x hx => ?_⟩
    · rcases Finset.mem_insert.mp hz with rfl | hz
      · exact hy
      · exact settle_transGen hrest hy (h.authenticated z hz)
    · rcases h.targets x hx with hxA | hx'
      · exact .inl (Finset.mem_insert_of_mem hxA)
      · exact .inr (settle_reflTransGen hrest hy hx')

variable (t roots e) in
/-- The loop invariant for completeness: the roots are authenticated, and every
object still to be checked reaches one. -/
structure CompleteInv (A : Finset ℕ) (w : List ℕ) : Prop where
  roots_subset : roots ⊆ A
  pending : ∀ u ∈ w, t.Reaches roots e u

theorem CompleteInv.round {A : Finset ℕ} {y : ℕ} {rest : List ℕ} (h : CompleteInv t roots e A (y :: rest)) :
    ∃ A' w', authenticateRound t e A y rest = .ok (A', w') ∧ CompleteInv t roots e A' w' := by
  have hrest : ∀ u ∈ rest, t.Reaches roots e u := fun u hu => h.pending u (List.mem_cons_of_mem y hu)
  by_cases hyA : y ∈ A
  · exact ⟨A, rest, Iff.mpr authenticateRound_eq_ok (.inl ⟨hyA, rfl, rfl⟩), h.roots_subset, hrest⟩
  obtain ⟨z, hyz, hz⟩ := h.pending y List.mem_cons_self
  rcases Relation.ReflTransGen.cases_head hyz with rfl | ⟨p, hcov, hpz⟩
  · rcases hz with hroot | hup
    · exact absurd (h.roots_subset hroot) hyA
    · exact ⟨A, rest, Iff.mpr authenticateRound_eq_ok (.inr (.inl ⟨hyA, hup, rfl, rfl⟩)), h.roots_subset, hrest⟩
  · refine ⟨insert y A, p :: rest, Iff.mpr authenticateRound_eq_ok (.inr (.inr ⟨hyA, p, hcov, rfl, rfl⟩)),
      h.roots_subset.trans (Finset.subset_insert y A), ?_⟩
    intro u hu
    rcases List.mem_cons.mp hu with rfl | hu
    · exact ⟨z, hpz, hz⟩
    · exact hrest u hu

end Invariants

section Check

variable (t : OwnershipState) (sender : ℕ) (gasCoins : List ObjectRef) (mutableInputs : Finset ℕ)
  (isEpochChange : Bool)

theorem checkOwnershipInvariants_of_ok {A : Finset ℕ}
    (h : authenticatedForMutation t sender (gasCoins.map (·.id)).toFinset mutableInputs = .ok A) :
    checkOwnershipInvariants t sender gasCoins mutableInputs isEpochChange =
      authenticateLoop t isEpochChange
        (t.coverable.card + ((ascending t.store.modifiedObjects).filter (· ∉ (gasCoins.map (·.id)).toFinset)).length + 1)
        A ((ascending t.store.modifiedObjects).filter (· ∉ (gasCoins.map (·.id)).toFinset)).reverse := by
  simp only [checkOwnershipInvariants, h, List.length_reverse]

theorem checkOwnershipInvariants_isSome : (checkOwnershipInvariants t sender gasCoins mutableInputs isEpochChange).isSome := by
  cases hfirst : authenticatedForMutation t sender (gasCoins.map (·.id)).toFinset mutableInputs with
  | error e => simp [checkOwnershipInvariants, hfirst]
  | ok A =>
    rw [checkOwnershipInvariants_of_ok t sender gasCoins mutableInputs isEpochChange hfirst]
    apply authenticateLoop_isSome
    have hle : (t.coverable \ A).card ≤ t.coverable.card := Finset.card_le_card Finset.sdiff_subset
    rw [List.length_reverse]
    omega

/-- Every run of the check ends; and without cycles among the covers, it passes
exactly when every input but the gas coins is owned by the sender, shared or
immutable, and every modified object but the gas coins reaches an authenticated
root (a mutable input, not a gas coin, owned by the sender or shared) or a
system package upgraded at an epoch change. -/
theorem checkOwnershipInvariants_spec :
    (checkOwnershipInvariants t sender gasCoins mutableInputs isEpochChange).isSome ∧
      (t.Acyclic → (checkOwnershipInvariants t sender gasCoins mutableInputs isEpochChange = some (.ok ()) ↔
        t.InputsAccepted sender (gasCoins.map (·.id)).toFinset ∧
          ∀ x ∈ t.store.modifiedObjects, x ∉ (gasCoins.map (·.id)).toFinset →
            t.Reaches (t.authenticatedRoots sender (gasCoins.map (·.id)).toFinset mutableInputs) isEpochChange x)) := by
  set gasObjs := (gasCoins.map (·.id)).toFinset
  set roots := t.authenticatedRoots sender gasObjs mutableInputs
  set targets := (ascending t.store.modifiedObjects).filter (· ∉ gasObjs)
  have hmem : ∀ x, x ∈ targets ↔ x ∈ t.store.modifiedObjects ∧ x ∉ gasObjs := by
    simp [targets, mem_ascending]
  refine ⟨checkOwnershipInvariants_isSome t sender gasCoins mutableInputs isEpochChange, fun hacyclic =>
    ⟨fun hok => ?_, fun hcheck => ?_⟩⟩
  · cases hfirst : authenticatedForMutation t sender gasObjs mutableInputs with
    | error e => simp [checkOwnershipInvariants, gasObjs, hfirst] at hok
    | ok A =>
      obtain ⟨haccepted, rfl⟩ := authenticatedForMutation_eq_ok.mp hfirst
      rw [checkOwnershipInvariants_of_ok t sender gasCoins mutableInputs isEpochChange hfirst] at hok
      -- the roots reach themselves, and each target waits on itself
      have hinit : SoundInv t roots isEpochChange targets roots targets.reverse :=
        ⟨fun y hy => .inl ⟨y, .refl, .inl hy⟩, fun x hx => .inr (.inr ⟨x, List.mem_reverse.mpr hx, .refl⟩)⟩
      obtain ⟨A', hA'⟩ := authenticateLoop_inv t isEpochChange (SoundInv t roots isEpochChange targets)
        (fun _ _ _ _ _ h hround => h.round hacyclic hround) _ _ _ hinit hok
      refine ⟨haccepted, fun x hx hgas => ?_⟩
      rcases hA'.targets x ((hmem x).mpr ⟨hx, hgas⟩) with hxA | hr | ⟨u, hu, -⟩
      · rcases hA'.authenticated x hxA with hr | ⟨u, hu, -⟩
        · exact hr
        · exact absurd hu List.not_mem_nil
      · exact hr
      · exact absurd hu List.not_mem_nil
  · obtain ⟨haccepted, hreach⟩ := hcheck
    have hfirst : authenticatedForMutation t sender gasObjs mutableInputs = .ok roots :=
      authenticatedForMutation_eq_ok.mpr ⟨haccepted, rfl⟩
    rw [checkOwnershipInvariants_of_ok t sender gasCoins mutableInputs isEpochChange hfirst]
    refine authenticateLoop_eq_ok t isEpochChange (CompleteInv t roots isEpochChange) (fun _ _ _ h => h.round) _ _ _
      ⟨subset_rfl, fun u hu => ?_⟩ ?_
    · obtain ⟨hu, hgas⟩ := (hmem u).mp (List.mem_reverse.mp hu)
      exact hreach u hu hgas
    · have hle : (t.coverable \ roots).card ≤ t.coverable.card := Finset.card_le_card Finset.sdiff_subset
      rw [List.length_reverse]
      omega

theorem OwnershipState.acyclic_of_rank (f : ℕ → ℕ) (h : ∀ y p, t.Covers y p → f p < f y) : t.Acyclic := by
  have hlt : ∀ y z, Relation.TransGen t.Covers y z → f z < f y := by
    intro y z hyz
    induction hyz with
    | single hc => exact h _ _ hc
    | tail _ hc ih => exact (h _ _ hc).trans ih
  exact fun y hy => lt_irrefl _ (hlt y y hy)

end Check

/-- A transaction of the sender `1` paid with the gas coin `5` modified the gas
coin and the object `10`, which the gas coin owned before the transaction. -/
def gasOwnedChild : OwnershipState where
  store :=
    { inputObjects := ⟨{5}, fun id => ⟨id, .move true 0, .addressOwner 1, 0, 0⟩, fun _ _ => rfl⟩
      mutableInputRefs := {5}
      loadedRuntimeObjects := fun _ => none
      systemPackageStorageRebate := fun _ => none
      writtenObjects := ⟨∅, fun id => ⟨id, .move true 0, .addressOwner 1, 0, 0⟩, fun _ _ => rfl⟩
      modifiedObjects := {5, 10}
      mutableInputRefs_subset := subset_rfl }
  wrappedObjectContainers := ⟨∅, id⟩
  backingStore :=
    ⟨{5, 10}, fun id => ⟨id, .move (id == 5) 0, if id = 10 then .objectOwner 5 else .addressOwner 1, 0, 0⟩,
      fun _ _ => rfl⟩

theorem gasOwnedChild_acyclic : gasOwnedChild.Acyclic := by
  refine gasOwnedChild.acyclic_of_rank id fun y p hc => ?_
  rcases hc with hw | ⟨-, o, hs, ho⟩
  · simp [gasOwnedChild, IdMap.get?] at hw
  · obtain ⟨hy, rfl⟩ := (ObjectMap.get?_eq_some _).mp hs
    simp only [gasOwnedChild, Finset.mem_insert, Finset.mem_singleton] at hy
    rcases hy with rfl | rfl <;> simp [gasOwnedChild] at ho <;> simp only [id] <;> omega

theorem checkOwnershipInvariants_gasOwnedChild :
    gasOwnedChild.Acyclic ∧
      (∀ x ∈ gasOwnedChild.store.modifiedObjects, x ≠ 5 → Relation.ReflTransGen gasOwnedChild.Covers x 5) ∧
      5 ∈ gasOwnedChild.store.inputObjects.ids ∧ (gasOwnedChild.store.inputObjects.get 5).owner = .addressOwner 1 ∧
      checkOwnershipInvariants gasOwnedChild 1 [⟨5, 1, 0⟩] {5} false = some (.error (.failedToLoadObject 1)) := by
  refine ⟨gasOwnedChild_acyclic, fun x hx hx5 => ?_, by decide, rfl, by rfl⟩
  simp only [gasOwnedChild, Finset.mem_insert, Finset.mem_singleton] at hx
  rcases hx with rfl | rfl
  · exact absurd rfl hx5
  · exact .single (.inr ⟨by simp [gasOwnedChild, IdMap.get?], gasOwnedChild.backingStore.get 10,
      by simp [gasOwnedChild, ObjectMap.get?], .inl (by simp [gasOwnedChild])⟩)

theorem checkOwnershipInvariants_spec_gasOwnedChild :
    gasOwnedChild.Acyclic ∧ (checkOwnershipInvariants gasOwnedChild 1 [⟨5, 1, 0⟩] {5} false).isSome ∧
      (checkOwnershipInvariants gasOwnedChild 1 [⟨5, 1, 0⟩] {5} false = some (.ok ()) ↔
        gasOwnedChild.InputsAccepted 1 ([(⟨5, 1, 0⟩ : ObjectRef)].map (·.id)).toFinset ∧
          ∀ x ∈ gasOwnedChild.store.modifiedObjects, x ∉ ([(⟨5, 1, 0⟩ : ObjectRef)].map (·.id)).toFinset →
            gasOwnedChild.Reaches
              (gasOwnedChild.authenticatedRoots 1 ([(⟨5, 1, 0⟩ : ObjectRef)].map (·.id)).toFinset {5}) false x) :=
  have hspec := checkOwnershipInvariants_spec gasOwnedChild 1 [⟨5, 1, 0⟩] {5} false
  ⟨gasOwnedChild_acyclic, hspec.1, hspec.2 gasOwnedChild_acyclic⟩

end Iota.Execution
