import Iota.Core.BaseTypes
import Iota.Lib.Ascending

/-! `CausalOrder::causal_sort` (`crates/iota-core/src/checkpoints/causal_order.rs`):
the effects of a checkpoint are put in an order in which every transaction comes
after those it depends on.  A transaction depends on the transactions its effects
list, and, through `RWLockDependencyBuilder`, a transaction that mutates a shared
object version depends on those that only read that version.  The sort is a
depth-first search with an explicit stack of `InsertState`s over the map
`not_seen`, started from the least digest not yet seen; a transaction is output
once every dependency it has in the map has been.

`not_seen` is a `BTreeMap` whose entries are only ever removed: it is modelled as
the set of its keys over the map `from_vec` builds (`entries`).  The loops are run
on fuel; enough fuel is given, and the proofs show that it is. -/

namespace Iota.Checkpoints

open Iota.Core Iota.Lib

inductive InputSharedObject
  | readOnly (objRef : ObjectRef)
  | mutate (objRef : ObjectRef)
  | readDeleted (oid version : ℕ)
  | mutateDeleted (oid version : ℕ)
  | cancelled (oid version : ℕ)
  deriving DecidableEq, Repr

namespace InputSharedObject

/-- The shared object version an input only reads. -/
def readKey? : InputSharedObject → Option ObjectKey
  | readOnly objRef => some objRef.toKey
  | readDeleted oid version => some ⟨oid, version⟩
  | _ => none

/-- The shared object version an input mutates. -/
def mutateKey? : InputSharedObject → Option ObjectKey
  | mutate objRef => some objRef.toKey
  | mutateDeleted oid version => some ⟨oid, version⟩
  | _ => none

end InputSharedObject

/-- The parts of `TransactionEffects` the sort reads. -/
structure TransactionEffects where
  transactionDigest : ℕ
  dependencies : List ℕ
  inputSharedObjects : List InputSharedObject
  deriving DecidableEq, Repr

/-- `RWLockDependencyBuilder`; each of its maps of vectors is the list of the pushes
made to it, in order. -/
structure RWLockDependencyBuilder where
  readVersion : List (ObjectKey × ℕ)
  overwriteVersions : List (ℕ × ObjectKey)

namespace RWLockDependencyBuilder

/-- The push one input shared object of the transaction `digest` makes. -/
def record (digest : ℕ) (b : RWLockDependencyBuilder) : InputSharedObject → RWLockDependencyBuilder
  | .readOnly objRef => ⟨b.readVersion ++ [(objRef.toKey, digest)], b.overwriteVersions⟩
  | .mutate objRef => ⟨b.readVersion, b.overwriteVersions ++ [(digest, objRef.toKey)]⟩
  | .readDeleted oid version => ⟨b.readVersion ++ [(⟨oid, version⟩, digest)], b.overwriteVersions⟩
  | .mutateDeleted oid version => ⟨b.readVersion, b.overwriteVersions ++ [(digest, ⟨oid, version⟩)]⟩
  | .cancelled _ _ => b

def fromEffects (effects : List TransactionEffects) : RWLockDependencyBuilder :=
  effects.foldl (fun b effect => effect.inputSharedObjects.foldl (record effect.transactionDigest) b) ⟨[], []⟩

/-- `HashMap::get` on a map of vectors: what was pushed under `k`, in order, and
nothing where no vector was made. -/
def get {κ β : Type} [DecidableEq κ] (pushes : List (κ × β)) (k : κ) : List β :=
  (pushes.filter fun p => p.1 = k).map (·.2)

def addDependenciesFor (b : RWLockDependencyBuilder) (digest : ℕ) (v : Finset ℕ) : Finset ℕ :=
  (get b.overwriteVersions digest).foldl (fun v objVer => (get b.readVersion objVer).foldl (fun v dep => insert dep v) v) v

end RWLockDependencyBuilder

structure TransactionDependencies where
  digest : ℕ
  dependencies : Finset ℕ
  effects : TransactionEffects

def TransactionDependencies.fromEffects (effects : TransactionEffects) (rwlockBuilder : RWLockDependencyBuilder) :
    TransactionDependencies :=
  ⟨effects.transactionDigest,
    rwlockBuilder.addDependenciesFor effects.transactionDigest effects.dependencies.toFinset, effects⟩

/-- The map `from_vec` collects: under each digest, the dependencies of the last
effects of that digest. -/
def entries (effects : List TransactionEffects) (digest : ℕ) : Option TransactionDependencies :=
  (effects.reverse.find? fun e => e.transactionDigest = digest).map
    (TransactionDependencies.fromEffects · (RWLockDependencyBuilder.fromEffects effects))

structure CausalOrder where
  notSeen : Finset ℕ
  output : List TransactionEffects

def CausalOrder.fromVec (effects : List TransactionEffects) : CausalOrder :=
  ⟨(effects.map (·.transactionDigest)).toFinset, []⟩

/-- `InsertState`: the dependencies left to visit, a vector popped from its end (here
its last element comes first), and the transaction, output once they are visited.
The source keeps the transaction in an `Option` that is taken when the state is
done, just before the state is dropped. -/
structure InsertState where
  dependencies : List ℕ
  transaction : TransactionDependencies

def InsertState.new (transaction : TransactionDependencies) : InsertState :=
  ⟨(ascending transaction.dependencies).reverse, transaction⟩

section Machine

variable (entries : ℕ → Option TransactionDependencies)

namespace CausalOrder

/-- `not_seen.remove(&dep)`. -/
def remove (o : CausalOrder) (dep : ℕ) : Option (TransactionDependencies × CausalOrder) :=
  if dep ∈ o.notSeen then (entries dep).map fun t => (t, ⟨o.notSeen.erase dep, o.output⟩) else none

/-- `pop_first`: the entry of the least key; its `unwrap` cannot fail, as every key
has an entry. -/
def popFirst (o : CausalOrder) : Option (TransactionDependencies × CausalOrder) :=
  (ascending o.notSeen).head?.bind (o.remove entries)

end CausalOrder

/-- The loop of `InsertState::process` over the dependencies left: the first one
still unseen is removed from the map and a state to visit it returned; with none
left, the transaction is output. -/
def processLoop (transaction : TransactionDependencies) :
    List ℕ → CausalOrder → Option InsertState × InsertState × CausalOrder
  | [], o => (none, ⟨[], transaction⟩, ⟨o.notSeen, o.output ++ [transaction.effects]⟩)
  | dep :: rest, o =>
    match o.remove entries dep with
    | some (depTransaction, o') => (some (InsertState.new depTransaction), ⟨rest, transaction⟩, o')
    | none => processLoop transaction rest o

def InsertState.process (state : InsertState) (o : CausalOrder) : Option InsertState × InsertState × CausalOrder :=
  processLoop entries state.transaction state.dependencies o

/-- The loop of `insert` over the stack of states, its top first: a state returned
by `process` is pushed, a finished one popped.  `none` where the fuel runs out. -/
def insertLoop : ℕ → CausalOrder → List InsertState → Option CausalOrder
  | _, o, [] => some o
  | 0, _, _ :: _ => none
  | fuel + 1, o, state :: states =>
    match state.process entries o with
    | (some newState, state', o') => insertLoop fuel o' (newState :: state' :: states)
    | (none, _, o') => insertLoop fuel o' states

/-- `insert`, with as much fuel as it can use: each round removes an entry or pops
a state. -/
def CausalOrder.insert (o : CausalOrder) (transaction : TransactionDependencies) : Option CausalOrder :=
  insertLoop entries (2 * o.notSeen.card + 1) o [InsertState.new transaction]

/-- The loop of `causal_sort`: the least unseen transaction is inserted, until none is left. -/
def sortLoop : ℕ → CausalOrder → Option CausalOrder
  | 0, _ => none
  | fuel + 1, o =>
    match o.popFirst entries with
    | none => some o
    | some (item, o') => (o'.insert entries item).bind (sortLoop fuel)

end Machine

def causalSort (effects : List TransactionEffects) : Option (List TransactionEffects) :=
  let this := CausalOrder.fromVec effects
  (sortLoop (entries effects) (this.notSeen.card + 1) this).map (·.output)

/-! ### The dependencies each transaction is given -/

namespace RWLockDependencyBuilder

theorem record_eq (digest : ℕ) (b : RWLockDependencyBuilder) (kind : InputSharedObject) :
    record digest b kind = ⟨b.readVersion ++ (kind.readKey?.map (·, digest)).toList,
      b.overwriteVersions ++ (kind.mutateKey?.map (digest, ·)).toList⟩ := by
  cases kind <;> simp [record, InputSharedObject.readKey?, InputSharedObject.mutateKey?]

theorem mem_readVersion_foldl {key : ObjectKey} {d : ℕ} :
    ∀ (effects : List TransactionEffects) (b : RWLockDependencyBuilder),
      (key, d) ∈ (effects.foldl (fun b effect => effect.inputSharedObjects.foldl (record effect.transactionDigest) b)
        b).readVersion ↔
      (key, d) ∈ b.readVersion ∨
        ∃ e ∈ effects, e.transactionDigest = d ∧ ∃ kind ∈ e.inputSharedObjects, kind.readKey? = some key
  | [], b => by simp
  | e :: effects, b => by
    have hinner : ∀ (kinds : List InputSharedObject) (b : RWLockDependencyBuilder),
        (key, d) ∈ (kinds.foldl (record e.transactionDigest) b).readVersion ↔
          (key, d) ∈ b.readVersion ∨ e.transactionDigest = d ∧ ∃ kind ∈ kinds, kind.readKey? = some key := by
      intro kinds
      induction kinds with
      | nil => simp
      | cons kind kinds ih =>
        intro b
        rw [List.foldl_cons, ih, record_eq]
        cases hk : kind.readKey? with
        | none => simp [hk]
        | some key' => simp [hk]; tauto
    rw [List.foldl_cons, mem_readVersion_foldl effects, hinner]
    simp only [List.mem_cons, exists_eq_or_imp]
    exact or_assoc

theorem mem_overwriteVersions_foldl {key : ObjectKey} {d : ℕ} :
    ∀ (effects : List TransactionEffects) (b : RWLockDependencyBuilder),
      (d, key) ∈ (effects.foldl (fun b effect => effect.inputSharedObjects.foldl (record effect.transactionDigest) b)
        b).overwriteVersions ↔
      (d, key) ∈ b.overwriteVersions ∨
        ∃ e ∈ effects, e.transactionDigest = d ∧ ∃ kind ∈ e.inputSharedObjects, kind.mutateKey? = some key
  | [], b => by simp
  | e :: effects, b => by
    have hinner : ∀ (kinds : List InputSharedObject) (b : RWLockDependencyBuilder),
        (d, key) ∈ (kinds.foldl (record e.transactionDigest) b).overwriteVersions ↔
          (d, key) ∈ b.overwriteVersions ∨ e.transactionDigest = d ∧ ∃ kind ∈ kinds, kind.mutateKey? = some key := by
      intro kinds
      induction kinds with
      | nil => simp
      | cons kind kinds ih =>
        intro b
        rw [List.foldl_cons, ih, record_eq]
        cases hk : kind.mutateKey? with
        | none => simp [hk]
        | some key' => simp [hk]; tauto
    rw [List.foldl_cons, mem_overwriteVersions_foldl effects, hinner]
    simp only [List.mem_cons, exists_eq_or_imp]
    exact or_assoc

theorem mem_get {κ β : Type} [DecidableEq κ] {pushes : List (κ × β)} {k : κ} {x : β} :
    x ∈ get pushes k ↔ (k, x) ∈ pushes := by
  simp only [get, List.mem_map, List.mem_filter, decide_eq_true_eq]
  constructor
  · rintro ⟨⟨k', x'⟩, ⟨hmem, rfl⟩, rfl⟩
    exact hmem
  · intro h
    exact ⟨(k, x), ⟨h, rfl⟩, rfl⟩

theorem mem_foldl_insert {dep : ℕ} : ∀ (l : List ℕ) (v : Finset ℕ), dep ∈ l.foldl (fun v d => insert d v) v ↔ dep ∈ v ∨ dep ∈ l
  | [], v => by simp
  | d :: l, v => by
    rw [List.foldl_cons, mem_foldl_insert l, Finset.mem_insert, List.mem_cons]
    tauto

theorem mem_addDependenciesFor (b : RWLockDependencyBuilder) (digest dep : ℕ) (v : Finset ℕ) :
    dep ∈ b.addDependenciesFor digest v ↔ dep ∈ v ∨ ∃ key, (digest, key) ∈ b.overwriteVersions ∧ (key, dep) ∈ b.readVersion := by
  have houter : ∀ (keys : List ObjectKey) (v : Finset ℕ),
      dep ∈ keys.foldl (fun v objVer => (get b.readVersion objVer).foldl (fun v dep => insert dep v) v) v ↔
        dep ∈ v ∨ ∃ key ∈ keys, (key, dep) ∈ b.readVersion := by
    intro keys
    induction keys with
    | nil => simp
    | cons key keys ih =>
      intro v
      rw [List.foldl_cons, ih, mem_foldl_insert, mem_get]
      simp only [List.mem_cons, exists_eq_or_imp]
      tauto
  rw [addDependenciesFor, houter]
  simp only [mem_get]

end RWLockDependencyBuilder

theorem mem_dependencies_fromEffects (effects : List TransactionEffects) (e : TransactionEffects) (d : ℕ) :
    d ∈ (TransactionDependencies.fromEffects e (RWLockDependencyBuilder.fromEffects effects)).dependencies ↔
      d ∈ e.dependencies ∨ ∃ key,
        (∃ w ∈ effects, w.transactionDigest = e.transactionDigest ∧
          ∃ kind ∈ w.inputSharedObjects, kind.mutateKey? = some key) ∧
        ∃ r ∈ effects, r.transactionDigest = d ∧ ∃ kind ∈ r.inputSharedObjects, kind.readKey? = some key := by
  simp only [TransactionDependencies.fromEffects, RWLockDependencyBuilder.mem_addDependenciesFor,
    RWLockDependencyBuilder.fromEffects, RWLockDependencyBuilder.mem_overwriteVersions_foldl,
    RWLockDependencyBuilder.mem_readVersion_foldl, List.mem_toFinset, List.not_mem_nil, false_or]

theorem entries_eq_some {effects : List TransactionEffects} {k : ℕ} {t : TransactionDependencies}
    (h : entries effects k = some t) :
    t.effects ∈ effects ∧ t.effects.transactionDigest = k ∧ t.digest = k := by
  obtain ⟨e, hfind, rfl⟩ := Option.map_eq_some_iff.mp h
  have hdigest : e.transactionDigest = k := by simpa using List.find?_some hfind
  exact ⟨List.mem_reverse.mp (List.mem_of_find?_eq_some hfind), hdigest, hdigest⟩

theorem entries_of_mem {effects : List TransactionEffects} (hdistinct : (effects.map (·.transactionDigest)).Nodup)
    {e : TransactionEffects} (he : e ∈ effects) :
    entries effects e.transactionDigest =
      some (TransactionDependencies.fromEffects e (RWLockDependencyBuilder.fromEffects effects)) := by
  have hsome : (effects.reverse.find? fun x => x.transactionDigest = e.transactionDigest).isSome :=
    List.find?_isSome.mpr ⟨e, List.mem_reverse.mpr he, by simp⟩
  obtain ⟨e', hfind⟩ := Option.isSome_iff_exists.mp hsome
  have hmem : e' ∈ effects := List.mem_reverse.mp (List.mem_of_find?_eq_some hfind)
  have hdigest : e'.transactionDigest = e.transactionDigest := by simpa using List.find?_some hfind
  rw [entries, hfind, List.inj_on_of_nodup_map hdistinct hmem he hdigest, Option.map_some]

/-! ### One step of the search -/

section Machine

variable {entries : ℕ → Option TransactionDependencies}

theorem CausalOrder.remove_eq_some {o o' : CausalOrder} {dep : ℕ} {t : TransactionDependencies} :
    o.remove entries dep = some (t, o') ↔ dep ∈ o.notSeen ∧ entries dep = some t ∧ o' = ⟨o.notSeen.erase dep, o.output⟩ := by
  unfold CausalOrder.remove
  split_ifs with hdep
  · cases hentry : entries dep <;> simp [hdep, eq_comm]
  · simp [hdep]

theorem processLoop_cases (transaction : TransactionDependencies) :
    ∀ (deps : List ℕ) (o : CausalOrder),
      (∃ pre dep rest t, deps = pre ++ dep :: rest ∧ (∀ d ∈ pre, o.remove entries d = none) ∧
        dep ∈ o.notSeen ∧ entries dep = some t ∧
        processLoop entries transaction deps o =
          (some (InsertState.new t), ⟨rest, transaction⟩, ⟨o.notSeen.erase dep, o.output⟩)) ∨
      ((∀ d ∈ deps, o.remove entries d = none) ∧
        processLoop entries transaction deps o = (none, ⟨[], transaction⟩, ⟨o.notSeen, o.output ++ [transaction.effects]⟩))
  | [], o => .inr ⟨by simp, rfl⟩
  | dep :: rest, o => by
    cases hremove : o.remove entries dep with
    | some removed =>
      obtain ⟨t, o'⟩ := removed
      obtain ⟨hdep, hentry, rfl⟩ := Iff.mp CausalOrder.remove_eq_some hremove
      exact .inl ⟨[], dep, rest, t, rfl, by simp, hdep, hentry, by simp [processLoop, hremove]⟩
    | none =>
      have hstep : processLoop entries transaction (dep :: rest) o = processLoop entries transaction rest o := by
        simp [processLoop, hremove]
      rcases processLoop_cases transaction rest o with ⟨pre, d, rest', t, rfl, hpre, hd, hentry, hrun⟩ | ⟨hall, hrun⟩
      · refine .inl ⟨dep :: pre, d, rest', t, rfl, ?_, hd, hentry, hstep.trans hrun⟩
        simpa [hremove] using hpre
      · exact .inr ⟨by simpa [hremove] using hall, hstep.trans hrun⟩

theorem popFirst_eq_some {o o' : CausalOrder} {t : TransactionDependencies} (h : o.popFirst entries = some (t, o')) :
    ∃ key ∈ o.notSeen, entries key = some t ∧ o' = ⟨o.notSeen.erase key, o.output⟩ := by
  unfold CausalOrder.popFirst at h
  cases hhead : (ascending o.notSeen).head? with
  | none => simp [hhead] at h
  | some key =>
    rw [hhead, Option.bind_some] at h
    obtain ⟨hkey, hentry, rfl⟩ := Iff.mp CausalOrder.remove_eq_some h
    exact ⟨key, hkey, hentry, rfl⟩

theorem notSeen_eq_empty_of_popFirst {o : CausalOrder} (hentries : ∀ k ∈ o.notSeen, entries k ≠ none)
    (h : o.popFirst entries = none) : o.notSeen = ∅ := by
  unfold CausalOrder.popFirst at h
  cases hhead : (ascending o.notSeen).head? with
  | none =>
    have hnil := congrArg List.length (List.head?_eq_none_iff.mp hhead)
    rw [ascending_eq_sort, Finset.length_sort] at hnil
    exact Finset.card_eq_zero.mp hnil
  | some key =>
    have hkey : key ∈ o.notSeen := mem_ascending.mp (List.mem_of_mem_head? hhead)
    rw [hhead, Option.bind_some] at h
    obtain ⟨t, ht⟩ := Option.ne_none_iff_exists'.mp (hentries key hkey)
    simp [CausalOrder.remove, hkey, ht] at h

end Machine

end Iota.Checkpoints
