import Iota.Core.BaseTypes
import Iota.Lib.Except

/-! The argument bookkeeping of the programmable transaction executor
(`programmable_transactions/context.rs`). The gas coin, every input and every
value a command returned sits in a slot that holds the value, or nothing once
it is taken; `borrowed` remembers, per `Argument`, whether it was borrowed
during the current command and whether mutably. `by_value_arg`,
`borrow_arg_mut` and `borrow_arg` hand a value out, `restore_arg` puts a
mutably borrowed value back, and `push_command_results` ends the command. A
failed call aborts the transaction, so the context it leaves is not kept. Move
values are abstract: a value knows whether it may be copied, and a type only
whether it is a reference. -/

namespace Iota.Execution.Programmable

open Iota.Core Iota.Lib

/-- An argument to a programmable transaction command. -/
inductive Argument
  | gasCoin
  | input (i : ℕ)
  | result (i : ℕ)
  | nestedResult (i j : ℕ)
  deriving DecidableEq, Repr

inductive UsageKind
  | borrowImm
  | borrowMut
  | byValue
  deriving DecidableEq, Repr

inductive CommandKind
  | moveCall
  | makeMoveVec
  | transferObjects
  | splitCoins
  | mergeCoins
  | publish
  | upgrade
  deriving DecidableEq, Repr

inductive InputObjectMetadata
  | receiving (id version : ℕ)
  | inputObject (id : ℕ) (isMutableInput : Bool) (owner : Owner) (version : ℕ)
  deriving DecidableEq

/-- A Move type, as far as the bookkeeping looks at it. -/
inductive MoveType
  | reference (inner : MoveType)
  | mutableReference (inner : MoveType)
  | other (name : ℕ)
  deriving DecidableEq, Repr

inductive RawValueType
  | any
  /-- A value a Move call returned; `hasCopy` is `abilities.has_copy()`. -/
  | loaded (ty : MoveType) (hasCopy : Bool)
  deriving DecidableEq

inductive Value
  | object (contents : ℕ)
  | raw (ty : RawValueType) (bytes : ℕ)
  | receiving (id version : ℕ) (type_ : Option MoveType)
  deriving DecidableEq

def Value.isCopyable : Value → Bool
  | .object _ => false
  | .raw .any _ => true
  | .raw (.loaded _ hasCopy) _ => hasCopy
  | .receiving .. => false

structure ResultValue where
  lastUsageKind : Option UsageKind
  value : Option Value
  deriving DecidableEq

def ResultValue.new (value : Value) : ResultValue := ⟨none, some value⟩

structure InputValue where
  objectMetadata : Option InputObjectMetadata
  inner : ResultValue
  deriving DecidableEq

inductive CommandArgumentError
  | indexOutOfBounds (idx : ℕ)
  | secondaryIndexOutOfBounds (resultIdx secondaryIdx : ℕ)
  | invalidResultArity (resultIdx : ℕ)
  | invalidGasCoinUsage
  | invalidValueUsage
  | invalidObjectByValue
  | invalidObjectByMutRef
  deriving DecidableEq, Repr

inductive ExecutionError
  | commandArgumentError (error : CommandArgumentError) (argIdx : ℕ)
  | invariantViolation (message : String)
  deriving DecidableEq, Repr

/-- The slot the `&mut Option<Value>` of `borrow_mut_impl` points into. -/
inductive Location
  | gas
  | input (i : ℕ)
  | result (i j : ℕ)
  deriving DecidableEq, Repr

structure ExecutionContext where
  gas : InputValue
  inputs : List InputValue
  results : List (List ResultValue)
  /-- `HashMap<Argument, bool>`: the arguments borrowed in the current
  command, `true` for a mutable borrow. -/
  borrowed : List (Argument × Bool)
  deriving DecidableEq

namespace ExecutionContext

variable (ctx : ExecutionContext)

def slot : Location → Option ResultValue
  | .gas => some ctx.gas.inner
  | .input i => ctx.inputs[i]?.map (·.inner)
  | .result i j => ctx.results[i]?.bind (·[j]?)

def modifySlot (f : ResultValue → ResultValue) : Location → ExecutionContext
  | .gas => { ctx with gas := { ctx.gas with inner := f ctx.gas.inner } }
  | .input i => { ctx with inputs := ctx.inputs.modify i fun v => { v with inner := f v.inner } }
  | .result i j => { ctx with results := ctx.results.modify i (·.modify j f) }

/-- The value in a slot, `None` once taken. -/
def valueAt (loc : Location) : Option Value := (ctx.slot loc).bind (·.value)

def setValue (loc : Location) (value : Option Value) : ExecutionContext :=
  ctx.modifySlot (fun rv => { rv with value := value }) loc

/-- `HashMap::insert`. -/
def insertBorrowed (arg : Argument) (isMut : Bool) : ExecutionContext :=
  { ctx with borrowed := (arg, isMut) :: ctx.borrowed.filter (·.1 ≠ arg) }

/-- Whether the value at the argument's location is borrowed, mutably or
immutably: the map is looked up by the argument itself. -/
def argIsBorrowed (arg : Argument) : Bool := (ctx.borrowed.lookup arg).isSome

def argIsMutBorrowed (arg : Argument) : Bool := ctx.borrowed.lookup arg = some true

/-- The slot of an argument, with the metadata of an input object; the most
recent usage is recorded when one is given. -/
def borrowMutImpl (arg : Argument) (updateLastUsage : Option UsageKind) :
    Except CommandArgumentError (ExecutionContext × Option InputObjectMetadata × Location) := do
  let (metadata, loc) ← match arg with
    | .gasCoin => pure (ctx.gas.objectMetadata, Location.gas)
    | .input i =>
      match ctx.inputs[i]? with
      | some inputValue => pure (inputValue.objectMetadata, .input i)
      | none => throw (.indexOutOfBounds i)
    | .result i =>
      match ctx.results[i]? with
      | some commandResult =>
        if commandResult.length ≠ 1 then throw (.invalidResultArity i) else pure (none, .result i 0)
      | none => throw (.indexOutOfBounds i)
    | .nestedResult i j =>
      match ctx.results[i]? with
      | some commandResult =>
        if j < commandResult.length then pure (none, .result i j) else throw (.secondaryIndexOutOfBounds i j)
      | none => throw (.indexOutOfBounds i)
  let ctx := match updateLastUsage with
    | some usage => ctx.modifySlot (fun rv => { rv with lastUsageKind := some usage }) loc
    | none => ctx
  pure (ctx, metadata, loc)

def borrowMut (arg : Argument) (usage : UsageKind) :
    Except CommandArgumentError (ExecutionContext × Option InputObjectMetadata × Location) :=
  ctx.borrowMutImpl arg (some usage)

/-- `by_value_arg_`: the value is taken, or copied when it may be. -/
def byValueArg_ (commandKind : CommandKind) (arg : Argument) :
    Except CommandArgumentError (ExecutionContext × Value) := do
  let isBorrowed := ctx.argIsBorrowed arg
  let (ctx, inputMetadataOpt, loc) ← ctx.borrowMut arg .byValue
  let some val := ctx.valueAt loc | throw .invalidValueUsage
  let isCopyable := val.isCopyable
  -- a value that cannot be copied and is borrowed would leave a dangling reference
  if !isCopyable && isBorrowed then throw .invalidValueUsage
  if arg = .gasCoin && commandKind ≠ .transferObjects then throw .invalidGasCoinUsage
  -- immutable objects cannot be taken by value
  if inputMetadataOpt matches some (.inputObject _ _ .immutable _) then throw .invalidObjectByValue
  -- any input object taken by value must be mutable
  if inputMetadataOpt matches some (.inputObject _ false _ _) then throw .invalidObjectByValue
  let ctx := if isCopyable then ctx else ctx.setValue loc none
  pure (ctx, val)

/-- `borrow_arg_mut_`: the value is taken until `restore_arg` puts it back. -/
def borrowArgMut_ (arg : Argument) : Except CommandArgumentError (ExecutionContext × Value) := do
  -- mutable borrowing requires unique usage
  if ctx.argIsBorrowed arg then throw .invalidValueUsage
  let ctx := ctx.insertBorrowed arg true
  let (ctx, inputMetadataOpt, loc) ← ctx.borrowMut arg .borrowMut
  let some val := ctx.valueAt loc | throw .invalidValueUsage
  if inputMetadataOpt matches some (.inputObject _ false _ _) then throw .invalidObjectByMutRef
  let ctx := if val.isCopyable then ctx else ctx.setValue loc none
  pure (ctx, val)

/-- `borrow_arg_`: the value is cloned and stays; a receiving argument gets
its type at its first use. -/
def borrowArg_ (arg : Argument) (argType : MoveType) : Except CommandArgumentError (ExecutionContext × Value) := do
  if ctx.argIsMutBorrowed arg then throw .invalidValueUsage
  let ctx := ctx.insertBorrowed arg false
  let (ctx, _, loc) ← ctx.borrowMut arg .borrowImm
  let some val := ctx.valueAt loc | throw .invalidValueUsage
  match val with
  | .receiving id version none =>
    match argType with
    | .reference inner =>
      let val := Value.receiving id version (some inner)
      pure (ctx.setValue loc (some val), val)
    | _ => throw .invalidValueUsage
  | val => pure (ctx, val)

def byValueArg (commandKind : CommandKind) (argIdx : ℕ) (arg : Argument) :
    Except ExecutionError (ExecutionContext × Value) :=
  (ctx.byValueArg_ commandKind arg).mapError (.commandArgumentError · argIdx)

def borrowArgMut (argIdx : ℕ) (arg : Argument) : Except ExecutionError (ExecutionContext × Value) :=
  (ctx.borrowArgMut_ arg).mapError (.commandArgumentError · argIdx)

def borrowArg (argIdx : ℕ) (arg : Argument) (argType : MoveType) :
    Except ExecutionError (ExecutionContext × Value) :=
  (ctx.borrowArg_ arg argType).mapError (.commandArgumentError · argIdx)

/-- `restore_arg` after a mutable borrow; the argument updates of the dev
inspect mode are not kept. -/
def restoreArg (arg : Argument) (value : Value) : Except ExecutionError ExecutionContext := do
  let wasMutOpt := ctx.borrowed.lookup arg
  let ctx := { ctx with borrowed := ctx.borrowed.filter (·.1 ≠ arg) }
  if wasMutOpt ≠ some true then
    throw (.invariantViolation ("Should never restore a non-mut borrowed value. " ++
      "The take+restore is an implementation detail of mutable references"))
  let (ctx, _, loc) ← (ctx.borrowMutImpl arg none).mapError fun _ =>
    .invariantViolation "Should be able to borrow argument to restore it"
  let oldValue := ctx.valueAt loc
  let ctx := ctx.setValue loc (some value)
  if !(oldValue.isNone || oldValue.any (·.isCopyable)) then
    throw (.invariantViolation ("Should never restore a non-taken value, unless it is copyable. " ++
      "The take+restore is an implementation detail of mutable references"))
  pure ctx

/-- The end of a command: every mutable borrow has been restored, the borrows
are cleared and the command's results become a new result slot list. -/
def pushCommandResults (results : List Value) : Except ExecutionError ExecutionContext :=
  if ctx.borrowed.all fun b => !b.2 then
    pure { ctx with borrowed := [], results := ctx.results ++ [results.map ResultValue.new] }
  else throw (.invariantViolation "all mut borrows should be restored")

end ExecutionContext

/-- The slot an argument names: `Result(i)` names the one value of command `i`,
the same slot as `NestedResult(i, 0)`. -/
def Argument.location : Argument → Location
  | .gasCoin => .gas
  | .input i => .input i
  | .result i => .result i 0
  | .nestedResult i j => .result i j

namespace ExecutionContext

variable {ctx ctx' : ExecutionContext}

theorem slot_modifySlot (f : ResultValue → ResultValue) (loc loc' : Location) :
    (ctx.modifySlot f loc).slot loc' = if loc = loc' then (ctx.slot loc').map f else ctx.slot loc' := by
  cases loc <;> cases loc' <;> simp [modifySlot, slot, List.getElem?_modify]
  · rename_i i i'
    -- both sides map the same function over the input, up to unfolding
    by_cases h : i = i' <;> simp only [h, if_true, if_false] <;> rfl
  · rename_i i j i' j'
    by_cases hi : i = i'
    · subst hi
      cases ctx.results[i]? with
      | none => simp
      | some l => by_cases hj : j = j' <;> simp [hj]
    · simp [hi]

theorem valueAt_modifySlot {f : ResultValue → ResultValue} (hf : ∀ rv, (f rv).value = rv.value)
    (loc loc' : Location) : (ctx.modifySlot f loc).valueAt loc' = ctx.valueAt loc' := by
  unfold valueAt
  rw [slot_modifySlot]
  split_ifs
  · cases ctx.slot loc' <;> simp [hf]
  · rfl

@[simp] theorem valueAt_setValue_self_none (loc : Location) : (ctx.setValue loc none).valueAt loc = none := by
  unfold setValue valueAt
  rw [slot_modifySlot, if_pos rfl]
  cases ctx.slot loc <;> rfl

theorem valueAt_setValue_of_ne {loc loc' : Location} (h : loc ≠ loc') (v : Option Value) :
    (ctx.setValue loc v).valueAt loc' = ctx.valueAt loc' := by
  unfold setValue valueAt
  rw [slot_modifySlot, if_neg h]

@[simp] theorem borrowed_modifySlot (f : ResultValue → ResultValue) (loc : Location) :
    (ctx.modifySlot f loc).borrowed = ctx.borrowed := by
  cases loc <;> rfl

theorem borrowMutImpl_eq_ok {arg : Argument} {u : Option UsageKind} {m : Option InputObjectMetadata}
    {loc : Location} (h : ctx.borrowMutImpl arg u = .ok (ctx', m, loc)) :
    loc = arg.location ∧ (ctx.slot loc).isSome ∧ (∀ loc', ctx'.valueAt loc' = ctx.valueAt loc') ∧
      ctx'.borrowed = ctx.borrowed := by
  -- recording the usage changes no value and no borrow
  have hrecord : ∀ loc₀, (∀ loc', (match u with
      | some usage => ctx.modifySlot (fun rv => { rv with lastUsageKind := some usage }) loc₀
      | none => ctx).valueAt loc' = ctx.valueAt loc') ∧
      (match u with
      | some usage => ctx.modifySlot (fun rv => { rv with lastUsageKind := some usage }) loc₀
      | none => ctx).borrowed = ctx.borrowed := by
    intro loc₀
    cases u with
    | some usage =>
      exact ⟨valueAt_modifySlot (f := fun rv => { rv with lastUsageKind := some usage }) (fun _ => rfl) loc₀,
        borrowed_modifySlot _ loc₀⟩
    | none => exact ⟨fun _ => rfl, rfl⟩
  unfold borrowMutImpl at h
  cases arg with
  | gasCoin =>
    simp at h
    obtain ⟨rfl, -, rfl⟩ := h
    exact ⟨rfl, rfl, hrecord _⟩
  | input i =>
    cases hi : ctx.inputs[i]? <;> simp [hi] at h
    obtain ⟨rfl, -, rfl⟩ := h
    exact ⟨rfl, by simp [slot, hi], hrecord _⟩
  | result i =>
    cases hi : ctx.results[i]? with
    | none => simp [hi] at h
    | some l =>
      simp only [hi] at h
      split_ifs at h with hlen
      · simp at h
      · simp only [not_not] at hlen
        obtain ⟨rfl, -, rfl⟩ := by simpa using h
        exact ⟨rfl, by simp [slot, hi, hlen], hrecord _⟩
  | nestedResult i j =>
    cases hi : ctx.results[i]? with
    | none => simp [hi] at h
    | some l =>
      simp only [hi] at h
      split_ifs at h with hj
      · obtain ⟨rfl, -, rfl⟩ := by simpa using h
        exact ⟨rfl, by simp [slot, hi, hj], hrecord _⟩
      · simp at h

variable {arg : Argument} {v : Value}

theorem byValueArg_.eq_ok {k : CommandKind} (h : ctx.byValueArg_ k arg = .ok (ctx', v)) :
    ∃ ctx₁ m loc, ctx.borrowMut arg .byValue = .ok (ctx₁, m, loc) ∧ ctx₁.valueAt loc = some v ∧
      (v.isCopyable = false → ctx.argIsBorrowed arg = false) ∧
      ctx' = if v.isCopyable then ctx₁ else ctx₁.setValue loc none := by
  unfold byValueArg_ at h
  simp only [except_bind_eq_ok] at h
  obtain ⟨⟨ctx₁, m, loc⟩, hbm, h⟩ := h
  cases hval : ctx₁.valueAt loc with
  | none => simp [hval] at h
  | some val =>
    simp only [hval] at h
    -- each of the four checks throws when it fails
    split at h
    · simp at h
    rename_i hborrowed
    split at h
    · simp at h
    suffices hres : (if val.isCopyable then ctx₁ else ctx₁.setValue loc none) = ctx' ∧ val = v by
      obtain ⟨rfl, rfl⟩ := hres
      exact ⟨ctx₁, m, loc, hbm, hval, fun hcopy => by simpa [hcopy] using hborrowed, rfl⟩
    -- the checks on the input object only throw
    rcases m with _ | ⟨id, version⟩ | ⟨id, isMutableInput, owner, version⟩
    · simpa using h
    · simpa using h
    · cases owner <;> cases isMutableInput <;> simp at h <;> exact h

@[simp] theorem valueAt_insertBorrowed (arg : Argument) (isMut : Bool) (loc : Location) :
    (ctx.insertBorrowed arg isMut).valueAt loc = ctx.valueAt loc := rfl

@[simp] theorem borrowed_setValue (loc : Location) (value : Option Value) :
    (ctx.setValue loc value).borrowed = ctx.borrowed :=
  borrowed_modifySlot _ loc

theorem borrowArgMut_.eq_ok (h : ctx.borrowArgMut_ arg = .ok (ctx', v)) :
    ctx.argIsBorrowed arg = false ∧ ∃ ctx₁ m loc,
      (ctx.insertBorrowed arg true).borrowMut arg .borrowMut = .ok (ctx₁, m, loc) ∧ ctx₁.valueAt loc = some v ∧
      ctx' = if v.isCopyable then ctx₁ else ctx₁.setValue loc none := by
  unfold borrowArgMut_ at h
  split at h
  · simp at h
  rename_i hborrowed
  simp only [except_bind_eq_ok] at h
  obtain ⟨⟨ctx₁, m, loc⟩, hbm, h⟩ := h
  refine ⟨by simpa using hborrowed, ?_⟩
  cases hval : ctx₁.valueAt loc with
  | none => simp [hval] at h
  | some val =>
    simp only [hval] at h
    suffices hres : (if val.isCopyable then ctx₁ else ctx₁.setValue loc none) = ctx' ∧ val = v by
      obtain ⟨rfl, rfl⟩ := hres
      exact ⟨ctx₁, m, loc, hbm, hval, rfl⟩
    -- the check on the input object only throws
    rcases m with _ | ⟨id, version⟩ | ⟨id, isMutableInput, owner, version⟩
    · simpa using h
    · simpa using h
    · cases isMutableInput
      · simp at h
      · simpa using h

theorem valueAt_setValue_self {loc : Location} (hslot : (ctx.slot loc).isSome) (value : Option Value) :
    (ctx.setValue loc value).valueAt loc = value := by
  unfold setValue valueAt
  rw [slot_modifySlot, if_pos rfl]
  obtain ⟨rv, hrv⟩ := Option.isSome_iff_exists.mp hslot
  simp [hrv]

theorem borrowArg_.eq_ok {argType : MoveType} (h : ctx.borrowArg_ arg argType = .ok (ctx', v)) :
    ctx.argIsMutBorrowed arg = false ∧ ctx'.borrowed = (ctx.insertBorrowed arg false).borrowed ∧
      (ctx.valueAt arg.location).isSome ∧ ctx'.valueAt arg.location = some v ∧
      ∀ loc, loc ≠ arg.location → ctx'.valueAt loc = ctx.valueAt loc := by
  unfold borrowArg_ at h
  by_cases hmut : ctx.argIsMutBorrowed arg = true
  · rw [if_pos hmut] at h
    simp at h
  rw [if_neg hmut] at h
  simp only [except_bind_eq_ok] at h
  obtain ⟨⟨ctx₁, m, loc⟩, hbm, h⟩ := h
  obtain ⟨rfl, hslot, hvalues, hborrowed⟩ := borrowMutImpl_eq_ok hbm
  refine ⟨by simpa using hmut, ?_⟩
  cases hval : ctx₁.valueAt arg.location with
  | none => simp [hval] at h
  | some val =>
    simp only [hval] at h
    have hheld : (ctx.valueAt arg.location).isSome := by
      rw [show ctx.valueAt arg.location = ctx₁.valueAt arg.location from (hvalues _).symm, hval]
      rfl
    -- a receiving argument is typed at its first use; any other value is only cloned
    split at h
    · split at h
      · obtain ⟨rfl, rfl⟩ := by simpa using h
        have hslot₁ : (ctx₁.slot arg.location).isSome := by
          cases hs : ctx₁.slot arg.location with
          | none => simp [valueAt, hs] at hval
          | some _ => rfl
        refine ⟨by rw [borrowed_setValue, hborrowed], hheld, valueAt_setValue_self hslot₁ _, fun loc hloc => ?_⟩
        rw [valueAt_setValue_of_ne (Ne.symm hloc), hvalues]
        rfl
      · simp at h
    · obtain ⟨rfl, rfl⟩ := by simpa using h
      exact ⟨hborrowed, hheld, hval, fun loc _ => hvalues loc⟩

/-! ### Uses of one argument within a command -/

variable {k : CommandKind}

theorem byValueArg_.copyable_of_borrowed (hb : ctx.argIsBorrowed arg = true)
    (h : ctx.byValueArg_ k arg = .ok (ctx', v)) : v.isCopyable = true := by
  obtain ⟨-, -, -, -, -, hnotBorrowed, -⟩ := byValueArg_.eq_ok h
  by_contra hcopy
  rw [hnotBorrowed (by simpa using hcopy)] at hb
  exact Bool.false_ne_true hb

theorem borrowArgMut_.of_borrowed (hb : ctx.argIsBorrowed arg = true) :
    ctx.borrowArgMut_ arg = .error .invalidValueUsage := by
  unfold borrowArgMut_
  rw [if_pos hb]
  rfl

theorem borrowArg_.of_mutBorrowed {argType : MoveType} (hb : ctx.argIsMutBorrowed arg = true) :
    ctx.borrowArg_ arg argType = .error .invalidValueUsage := by
  unfold borrowArg_
  rw [if_pos hb]
  rfl

theorem byValueArg_.takes (h : ctx.byValueArg_ k arg = .ok (ctx', v)) (hv : v.isCopyable = false) :
    ctx'.valueAt arg.location = none := by
  obtain ⟨ctx₁, m, loc, hbm, -, -, rfl⟩ := byValueArg_.eq_ok h
  obtain ⟨rfl, -⟩ := borrowMutImpl_eq_ok hbm
  rw [hv, if_neg Bool.false_ne_true]
  exact valueAt_setValue_self_none _

theorem borrowArgMut_.takes (h : ctx.borrowArgMut_ arg = .ok (ctx', v)) (hv : v.isCopyable = false) :
    ctx'.valueAt arg.location = none := by
  obtain ⟨-, ctx₁, m, loc, hbm, -, rfl⟩ := borrowArgMut_.eq_ok h
  obtain ⟨rfl, -⟩ := borrowMutImpl_eq_ok hbm
  rw [hv, if_neg Bool.false_ne_true]
  exact valueAt_setValue_self_none _

theorem byValueArg_.ne_ok_of_empty (h : ctx.valueAt arg.location = none) : ctx.byValueArg_ k arg ≠ .ok (ctx', v) := by
  intro hok
  obtain ⟨ctx₁, m, loc, hbm, hval, -⟩ := byValueArg_.eq_ok hok
  obtain ⟨rfl, -, hvalues, -⟩ := borrowMutImpl_eq_ok hbm
  rw [hvalues, h] at hval
  cases hval

theorem borrowArgMut_.ne_ok_of_empty (h : ctx.valueAt arg.location = none) : ctx.borrowArgMut_ arg ≠ .ok (ctx', v) := by
  intro hok
  obtain ⟨-, ctx₁, m, loc, hbm, hval, -⟩ := borrowArgMut_.eq_ok hok
  obtain ⟨rfl, -, hvalues, -⟩ := borrowMutImpl_eq_ok hbm
  rw [hvalues, valueAt_insertBorrowed, h] at hval
  cases hval

theorem borrowArg_.ne_ok_of_empty {argType : MoveType} (h : ctx.valueAt arg.location = none) :
    ctx.borrowArg_ arg argType ≠ .ok (ctx', v) := by
  intro hok
  obtain ⟨-, -, hheld, -⟩ := borrowArg_.eq_ok hok
  rw [h] at hheld
  cases hheld

end ExecutionContext

/-- The argument loop of `build_move_args`: each argument is taken as its
parameter's type asks, by mutable reference, by reference or by value. The
arity check, the type checks and the serialization are left out. -/
def buildMoveArgs : ExecutionContext → ℕ → List (Argument × MoveType) →
    Except ExecutionError (ExecutionContext × List Value)
  | ctx, _, [] => pure (ctx, [])
  | ctx, idx, (arg, paramTy) :: args => do
    let (ctx, value) ← match paramTy with
      | .mutableReference _ => ctx.borrowArgMut idx arg
      | .reference _ => ctx.borrowArg idx arg paramTy
      | _ => ctx.byValueArg .moveCall idx arg
    let (ctx, values) ← buildMoveArgs ctx (idx + 1) args
    pure (ctx, value :: values)

/-- The context after a command returned one coin: its result is `Result(0)`,
and `NestedResult(0, 0)` names the same slot. -/
def splitCoinsContext : ExecutionContext :=
  ⟨⟨some (.inputObject 0 true (.addressOwner 1) 1), ResultValue.new (.object 0)⟩, [], [[ResultValue.new (.object 1)]], []⟩

/-- A Move call taking `&T` then `T`, or `&T` then `&mut T`, gets the coin
twice when its arguments name the slot once as `Result(0)` and once as
`NestedResult(0, 0)`: the borrow map is looked up by the argument's syntax.
Named twice as `Result(0)`, the second use fails with `InvalidValueUsage`. -/
theorem buildMoveArgs_result_nestedResult_alias :
    (∃ ctx, buildMoveArgs splitCoinsContext 0 [(.result 0, .reference (.other 0)), (.nestedResult 0 0, .other 0)] =
      .ok (ctx, [.object 1, .object 1])) ∧
    (∃ ctx, buildMoveArgs splitCoinsContext 0
      [(.result 0, .reference (.other 0)), (.nestedResult 0 0, .mutableReference (.other 0))] =
      .ok (ctx, [.object 1, .object 1])) ∧
    buildMoveArgs splitCoinsContext 0 [(.result 0, .reference (.other 0)), (.result 0, .other 0)] =
      .error (.commandArgumentError .invalidValueUsage 1) ∧
    buildMoveArgs splitCoinsContext 0 [(.result 0, .reference (.other 0)), (.result 0, .mutableReference (.other 0))] =
      .error (.commandArgumentError .invalidValueUsage 1) :=
  ⟨⟨_, rfl⟩, ⟨_, rfl⟩, rfl, rfl⟩

end Iota.Execution.Programmable
