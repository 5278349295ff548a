import Mathlib
import Iota.Core.BaseTypes
import Iota.Lib.ParentWalk

/-! `check_circular_ownership` of the object runtime
(`iota-move-natives/src/object_runtime/mod.rs`), which `ObjectRuntimeState::finish` runs
on the new owners of the transferred objects.  The objects given to another object are
entered one by one into a map from each object to its owner; before an object is
entered, the chain of owners from its new owner is walked, and meeting the object itself
is an error.  The walk is given as many steps as the map has entries, and one more. -/

namespace Iota.Execution.ObjectRuntime

open Iota.Core Iota.Lib Relation

inductive ExecutionErrorKind
  | circularObjectOwnership (object : ℕ)
  deriving DecidableEq, Repr

/-- The parent map the check builds, `object_owner_map`. -/
abbrev ObjectOwnerMap := AList fun _ : ℕ => ℕ

/-- The owner chain of `newOwner`, walked until `id` is met. -/
def walkOwners (objectOwnerMap : ObjectOwnerMap) (id newOwner : ℕ) : Option Bool :=
  walkTo (fun x => objectOwnerMap.lookup x) id (objectOwnerMap.entries.length + 1) newOwner

/-- The loop of `check_circular_ownership` from a map; `none` when a walk runs out of
steps. -/
def checkCircularOwnershipFrom (objectOwnerMap : ObjectOwnerMap) :
    List (ℕ × Owner) → Option (Except ExecutionErrorKind Unit)
  | [] => some (.ok ())
  | (id, recipient) :: transfers =>
    let objectOwnerMap := objectOwnerMap.erase id
    match recipient with
    | .objectOwner newOwner =>
      match walkOwners objectOwnerMap id newOwner with
      | some true => some (.error (.circularObjectOwnership id))
      | some false => checkCircularOwnershipFrom (objectOwnerMap.insert id newOwner) transfers
      | none => none
    | .addressOwner _ | .shared _ | .immutable => checkCircularOwnershipFrom objectOwnerMap transfers

def checkCircularOwnership (transfers : List (ℕ × Owner)) : Option (Except ExecutionErrorKind Unit) :=
  checkCircularOwnershipFrom ∅ transfers

/-- The ownership graph of the transfers: an edge from each object given to an object
to that object. -/
def OwnershipEdge (transfers : List (ℕ × Owner)) (id owner : ℕ) : Prop := (id, .objectOwner owner) ∈ transfers

theorem ownershipEdge_mono {transfers transfers' : List (ℕ × Owner)} (h : transfers ⊆ transfers') {a b : ℕ}
    (hab : TransGen (OwnershipEdge transfers) a b) : TransGen (OwnershipEdge transfers') a b :=
  TransGen.mono (fun _ _ hxy => h hxy) a b hab

/-- What the loop keeps: the map is the ownership graph of the transfers entered so far,
and that graph has no cycle. -/
structure OwnerMapInv (done : List (ℕ × Owner)) (objectOwnerMap : ObjectOwnerMap) : Prop where
  lookup_eq_some : ∀ id owner, objectOwnerMap.lookup id = some owner ↔ OwnershipEdge done id owner
  acyclic : ∀ a, ¬ TransGen (OwnershipEdge done) a a

theorem ownerMapInv_nil : OwnerMapInv [] ∅ where
  lookup_eq_some := fun _ _ => by simp [OwnershipEdge]
  acyclic := fun a ha => by
    cases ha with
    | single h => exact List.not_mem_nil h
    | tail _ h => exact List.not_mem_nil h

section Step

variable {done : List (ℕ × Owner)} {objectOwnerMap : ObjectOwnerMap}

theorem OwnerMapInv.parentEdge_iff (hinv : OwnerMapInv done objectOwnerMap) (a b : ℕ) :
    ParentEdge (fun x => objectOwnerMap.lookup x) a b ↔ OwnershipEdge done a b :=
  hinv.lookup_eq_some a b

theorem OwnerMapInv.reflTransGen_iff (hinv : OwnerMapInv done objectOwnerMap) (a b : ℕ) :
    ReflTransGen (ParentEdge fun x => objectOwnerMap.lookup x) a b ↔ ReflTransGen (OwnershipEdge done) a b := by
  have hrel : (ParentEdge fun x => objectOwnerMap.lookup x) = OwnershipEdge done := by
    funext x y
    exact propext (hinv.parentEdge_iff x y)
  rw [hrel]

theorem OwnerMapInv.erase (hinv : OwnerMapInv done objectOwnerMap) {id : ℕ} (hid : id ∉ done.map Prod.fst) :
    OwnerMapInv done (objectOwnerMap.erase id) := by
  refine ⟨fun x owner => ?_, hinv.acyclic⟩
  by_cases hx : x = id
  · subst hx
    rw [AList.lookup_erase]
    simp only [reduceCtorEq, false_iff]
    exact fun hedge => hid (List.mem_map.mpr ⟨_, hedge, rfl⟩)
  · rw [AList.lookup_erase_ne hx]
    exact hinv.lookup_eq_some x owner

theorem OwnerMapInv.append_other (hinv : OwnerMapInv done objectOwnerMap) {id : ℕ} {recipient : Owner}
    (hrecipient : ∀ owner, recipient ≠ .objectOwner owner) : OwnerMapInv (done ++ [(id, recipient)]) objectOwnerMap := by
  have hedge : OwnershipEdge (done ++ [(id, recipient)]) = OwnershipEdge done := by
    funext a b
    simp only [OwnershipEdge, List.mem_append, List.mem_singleton, Prod.mk.injEq, eq_iff_iff]
    exact ⟨fun h => h.resolve_right fun h' => hrecipient b h'.2.symm, .inl⟩
  constructor
  · rw [hedge]
    exact hinv.lookup_eq_some
  · rw [hedge]
    exact hinv.acyclic

theorem OwnerMapInv.append_objectOwner (hinv : OwnerMapInv done objectOwnerMap) {id owner : ℕ}
    (hid : id ∉ done.map Prod.fst) (hnot : ¬ ReflTransGen (OwnershipEdge done) owner id) :
    OwnerMapInv (done ++ [(id, .objectOwner owner)]) (objectOwnerMap.insert id owner) := by
  have hedge : OwnershipEdge (done ++ [(id, .objectOwner owner)]) = WithEdge (OwnershipEdge done) id owner := by
    funext a b
    simp [OwnershipEdge, WithEdge]
  constructor
  · intro x owner'
    rw [hedge]
    by_cases hx : x = id
    · subst hx
      rw [AList.lookup_insert]
      have hfresh : ¬ OwnershipEdge done x owner' := fun h => hid (List.mem_map.mpr ⟨_, h, rfl⟩)
      simp [WithEdge, hfresh, eq_comm]
    · rw [AList.lookup_insert_ne hx, hinv.lookup_eq_some]
      simp [WithEdge, hx]
  · rw [hedge]
    exact withEdge_acyclic hinv.acyclic hnot

theorem OwnerMapInv.walkOwners_isSome (hinv : OwnerMapInv done objectOwnerMap) (id owner : ℕ) :
    (walkOwners objectOwnerMap id owner).isSome := by
  apply walkTo_isSome id objectOwnerMap.entries.length _ objectOwnerMap.keys.toFinset
  · rw [List.toFinset_card_of_nodup objectOwnerMap.keys_nodup, AList.keys, List.keys, List.length_map]
  · intro x hx
    rw [List.mem_toFinset, ← AList.mem_keys, ← AList.lookup_isSome]
    exact hx
  · intro a ha
    apply hinv.acyclic a
    exact TransGen.mono (fun x y hxy => (hinv.parentEdge_iff x y).mp hxy) a a ha

end Step

theorem checkCircularOwnershipFrom_spec :
    ∀ (transfers done : List (ℕ × Owner)) (objectOwnerMap : ObjectOwnerMap),
      ((done ++ transfers).map Prod.fst).Nodup → OwnerMapInv done objectOwnerMap →
      ∃ result, checkCircularOwnershipFrom objectOwnerMap transfers = some result ∧
        (result = .ok () → ∀ a, ¬ TransGen (OwnershipEdge (done ++ transfers)) a a) ∧
        ∀ object, result = .error (.circularObjectOwnership object) →
          TransGen (OwnershipEdge (done ++ transfers)) object object := by
  intro transfers
  induction transfers with
  | nil =>
    intro done objectOwnerMap _ hinv
    refine ⟨.ok (), rfl, fun _ => by simpa using hinv.acyclic, ?_⟩
    intro object h
    cases h
  | cons transfer transfers ih =>
    intro done objectOwnerMap hnodup hinv
    obtain ⟨id, recipient⟩ := transfer
    have hid : id ∉ done.map Prod.fst := by
      rw [List.map_append, List.map_cons] at hnodup
      exact fun h => (List.nodup_append.mp hnodup).2.2 id h id List.mem_cons_self rfl
    have hnodup' : ((done ++ [(id, recipient)]) ++ transfers).map Prod.fst |>.Nodup := by
      simpa using hnodup
    have herase := hinv.erase hid
    have hsub : done ++ [(id, recipient)] ⊆ done ++ (id, recipient) :: transfers := by
      intro x hx
      simp only [List.mem_append, List.mem_singleton] at hx
      rcases hx with hx | rfl
      · exact List.mem_append_left _ hx
      · simp
    cases recipient with
    | objectOwner owner =>
      obtain ⟨walk, hwalk⟩ := Option.isSome_iff_exists.mp (herase.walkOwners_isSome id owner)
      cases walk with
      | true =>
        -- the new owner's chain meets the object: the new edge closes a cycle through it
        have hreach := (herase.reflTransGen_iff owner id).mp (reflTransGen_of_walkTo_eq_true hwalk)
        refine ⟨.error (.circularObjectOwnership id), by simp [checkCircularOwnershipFrom, hwalk], ?_, ?_⟩
        · intro h
          cases h
        · intro object h
          cases h
          apply ownershipEdge_mono hsub
          have hlast : OwnershipEdge (done ++ [(id, .objectOwner owner)]) id owner := by simp [OwnershipEdge]
          refine TransGen.head' hlast (ReflTransGen.mono (fun x y hxy => ?_) owner id hreach)
          exact List.mem_append_left _ hxy
      | false =>
        have hnot := mt (herase.reflTransGen_iff owner id).mpr (not_reflTransGen_of_walkTo_eq_false hwalk)
        obtain ⟨result, hresult, hok, herror⟩ :=
          ih _ _ hnodup' (herase.append_objectOwner hid hnot)
        rw [List.append_assoc, List.singleton_append] at hok herror
        exact ⟨result, by simpa [checkCircularOwnershipFrom, hwalk] using hresult, hok, herror⟩
    | addressOwner address =>
      obtain ⟨result, hresult, hok, herror⟩ := ih _ _ hnodup' (herase.append_other (by simp))
      rw [List.append_assoc, List.singleton_append] at hok herror
      exact ⟨result, hresult, hok, herror⟩
    | shared version =>
      obtain ⟨result, hresult, hok, herror⟩ := ih _ _ hnodup' (herase.append_other (by simp))
      rw [List.append_assoc, List.singleton_append] at hok herror
      exact ⟨result, hresult, hok, herror⟩
    | immutable =>
      obtain ⟨result, hresult, hok, herror⟩ := ih _ _ hnodup' (herase.append_other (by simp))
      rw [List.append_assoc, List.singleton_append] at hok herror
      exact ⟨result, hresult, hok, herror⟩

/-- `check_circular_ownership` on the transfers of distinct objects ends; it returns `Ok`
exactly when the ownership graph has no cycle, and its error names an object on a cycle. -/
theorem checkCircularOwnership_spec (transfers : List (ℕ × Owner)) (hdistinct : (transfers.map Prod.fst).Nodup) :
    ∃ result, checkCircularOwnership transfers = some result ∧
      (result = .ok () ↔ ∀ a, ¬ TransGen (OwnershipEdge transfers) a a) ∧
      ∀ object, result = .error (.circularObjectOwnership object) → TransGen (OwnershipEdge transfers) object object := by
  obtain ⟨result, hresult, hok, herror⟩ :=
    checkCircularOwnershipFrom_spec transfers [] ∅ (by simpa using hdistinct) ownerMapInv_nil
  rw [List.nil_append] at hok herror
  refine ⟨result, hresult, ⟨hok, fun hacyclic => ?_⟩, herror⟩
  cases result with
  | ok u => rfl
  | error e =>
    cases e with
    | circularObjectOwnership object => exact absurd (herror object rfl) (hacyclic object)

/-- Three objects, each given to the next, the last to the first: the cycle is found at
the last transfer. -/
example : checkCircularOwnership [(1, .objectOwner 2), (2, .objectOwner 3), (3, .objectOwner 1)] =
    some (.error (.circularObjectOwnership 3)) := rfl

theorem checkCircularOwnership_spec_threeCycle :
    (([(1, .objectOwner 2), (2, .objectOwner 3), (3, .objectOwner 1)] : List (ℕ × Owner)).map Prod.fst).Nodup ∧
    ∃ result, checkCircularOwnership [(1, .objectOwner 2), (2, .objectOwner 3), (3, .objectOwner 1)] = some result ∧
      (result = .ok () ↔
        ∀ a, ¬ TransGen (OwnershipEdge [(1, .objectOwner 2), (2, .objectOwner 3), (3, .objectOwner 1)]) a a) ∧
      ∀ object, result = .error (.circularObjectOwnership object) →
        TransGen (OwnershipEdge [(1, .objectOwner 2), (2, .objectOwner 3), (3, .objectOwner 1)]) object object :=
  ⟨by decide, checkCircularOwnership_spec _ (by decide)⟩

end Iota.Execution.ObjectRuntime
