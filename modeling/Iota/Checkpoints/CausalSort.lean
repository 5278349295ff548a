import Mathlib
import Iota.Checkpoints.CausalOrder

/-! The causal sort as a search: every digest is in one place at a time, not seen,
on the stack or output (`Inv`), so the search ends with every transaction output
once; and where the dependencies have no cycle, a state's dependencies are output
before the state is popped (`TopoInv`), so the output is in causal order.  Each
invariant is proved for one round of `insert`'s loop and carried over whole runs. -/

namespace Iota.Checkpoints

open Iota.Core Iota.Lib

section Search

variable {entries : ℕ → Option TransactionDependencies} {D : Finset ℕ}

variable (entries D) in
/-- Every key of the map has an entry, filed under its own digest. -/
structure EntriesWf : Prop where
  ne_none : ∀ k ∈ D, entries k ≠ none
  digest_eq : ∀ k t, entries k = some t → t.digest = k
  effects_digest : ∀ k t, entries k = some t → t.effects.transactionDigest = k

/-- The digests of the states on a stack. -/
def stackDigests (stack : List InsertState) : List ℕ := stack.map (·.transaction.digest)

def CausalOrder.outputDigests (o : CausalOrder) : List ℕ := o.output.map (·.transactionDigest)

variable (entries D) in
/-- Every key is in one place: not seen, on the stack, or output; states and output
come from the map. -/
structure Inv (o : CausalOrder) (stack : List InsertState) : Prop where
  partition : o.notSeen.val + (stackDigests stack : Multiset ℕ) + (o.outputDigests : Multiset ℕ) = D.val
  stack_entries : ∀ s ∈ stack, entries s.transaction.digest = some s.transaction
  output_entries : ∀ e ∈ o.output, ∃ t, entries e.transactionDigest = some t ∧ t.effects = e

theorem Inv.mem_iff {o : CausalOrder} {stack : List InsertState} (h : Inv entries D o stack) (k : ℕ) :
    k ∈ D ↔ k ∈ o.notSeen ∨ k ∈ stackDigests stack ∨ k ∈ o.outputDigests := by
  rw [← Finset.mem_val, ← h.partition]
  simp [or_assoc]

theorem Inv.nodup {o : CausalOrder} {stack : List InsertState} (h : Inv entries D o stack) :
    (o.notSeen.val + (stackDigests stack : Multiset ℕ) + (o.outputDigests : Multiset ℕ)).Nodup := by
  rw [h.partition]
  exact D.nodup

theorem Inv.notSeen_subset {o : CausalOrder} {stack : List InsertState} (h : Inv entries D o stack) :
    o.notSeen ⊆ D :=
  fun k hk => (h.mem_iff k).mpr (.inl hk)

theorem Inv.not_mem_output_of_stack {o : CausalOrder} {stack : List InsertState} (h : Inv entries D o stack) {k : ℕ}
    (hk : k ∈ stackDigests stack) : k ∉ o.outputDigests := by
  have hnodup := h.nodup
  rw [Multiset.nodup_add] at hnodup
  rw [Multiset.nodup_add] at hnodup
  exact fun ho => Multiset.disjoint_left.mp hnodup.2.2 (Multiset.mem_add.mpr (.inr (by simpa using hk)))
    (by simpa using ho)

variable (entries) in
/-- One round of `insert`'s loop, on a stack with a top. -/
def round (o : CausalOrder) (state : InsertState) (states : List InsertState) : CausalOrder × List InsertState :=
  match state.process entries o with
  | (some newState, state', o') => (o', newState :: state' :: states)
  | (none, _, o') => (o', states)

theorem insertLoop_succ (fuel : ℕ) (o : CausalOrder) (state : InsertState) (states : List InsertState) :
    insertLoop entries (fuel + 1) o (state :: states) =
      insertLoop entries fuel (round entries o state states).1 (round entries o state states).2 := by
  unfold round
  rcases hprocess : state.process entries o with ⟨_ | newState, state', o'⟩ <;> simp [insertLoop, hprocess]

theorem round_cases (o : CausalOrder) (state : InsertState) (states : List InsertState) :
    (∃ pre dep rest t, state.dependencies = pre ++ dep :: rest ∧ (∀ d ∈ pre, o.remove entries d = none) ∧
      dep ∈ o.notSeen ∧ entries dep = some t ∧
      round entries o state states =
        (⟨o.notSeen.erase dep, o.output⟩, InsertState.new t :: ⟨rest, state.transaction⟩ :: states)) ∨
    ((∀ d ∈ state.dependencies, o.remove entries d = none) ∧
      round entries o state states = (⟨o.notSeen, o.output ++ [state.transaction.effects]⟩, states)) := by
  rcases processLoop_cases state.transaction state.dependencies o with
    ⟨pre, dep, rest, t, hdeps, hpre, hdep, hentry, hrun⟩ | ⟨hall, hrun⟩
  · exact .inl ⟨pre, dep, rest, t, hdeps, hpre, hdep, hentry, by simp [round, InsertState.process, hrun]⟩
  · exact .inr ⟨hall, by simp [round, InsertState.process, hrun]⟩

theorem Inv.push (hwf : EntriesWf entries D) {o : CausalOrder} {stack : List InsertState} (h : Inv entries D o stack)
    {dep : ℕ} {t : TransactionDependencies} (hdep : dep ∈ o.notSeen) (hentry : entries dep = some t) :
    Inv entries D ⟨o.notSeen.erase dep, o.output⟩ (InsertState.new t :: stack) := by
  have ht : t.digest = dep := hwf.digest_eq dep t hentry
  refine ⟨?_, ?_, h.output_entries⟩
  · rw [← h.partition]
    simp only [stackDigests, List.map_cons, InsertState.new, ht, Finset.erase_val, ← Multiset.cons_coe]
    conv_rhs => rw [← Multiset.cons_erase (Finset.mem_val.mpr hdep)]
    simp only [Multiset.cons_add, Multiset.add_cons]
    rfl
  · intro s hs
    rcases List.mem_cons.mp hs with rfl | hs
    · simpa [InsertState.new, ht] using hentry
    · exact h.stack_entries s hs

theorem Inv.setDependencies {o : CausalOrder} {state : InsertState} {states : List InsertState}
    (h : Inv entries D o (state :: states)) (deps : List ℕ) :
    Inv entries D o (⟨deps, state.transaction⟩ :: states) :=
  ⟨h.partition, fun s hs => by
    rcases List.mem_cons.mp hs with rfl | hs
    · exact h.stack_entries state List.mem_cons_self
    · exact h.stack_entries s (List.mem_cons_of_mem state hs), h.output_entries⟩

theorem Inv.round (hwf : EntriesWf entries D) {o : CausalOrder} {state : InsertState} {states : List InsertState}
    (h : Inv entries D o (state :: states)) :
    Inv entries D (round entries o state states).1 (round entries o state states).2 := by
  have htop := h.stack_entries state List.mem_cons_self
  rcases round_cases o state states with ⟨pre, dep, rest, t, -, -, hdep, hentry, hround⟩ | ⟨-, hround⟩
  · -- the dependency moves from the map to the stack
    rw [hround]
    exact (h.setDependencies rest).push hwf hdep hentry
  · -- the transaction moves from the stack to the output
    have hdigest : state.transaction.effects.transactionDigest = state.transaction.digest :=
      hwf.effects_digest _ _ htop
    rw [hround]
    refine ⟨?_, fun s hs => h.stack_entries s (List.mem_cons_of_mem state hs), ?_⟩
    · rw [← h.partition]
      simp only [stackDigests, CausalOrder.outputDigests, List.map_cons, List.map_append, List.map_nil, hdigest,
        ← Multiset.coe_add, ← Multiset.cons_coe, ← Multiset.singleton_add, Multiset.coe_nil]
      simp only [zero_add, add_comm, add_left_comm, add_assoc]
    · intro e he
      rcases List.mem_append.mp he with he | he
      · exact h.output_entries e he
      · rw [List.mem_singleton.mp he, hdigest]
        exact ⟨state.transaction, htop, rfl⟩

theorem round_measure_lt (o : CausalOrder) (state : InsertState) (states : List InsertState) :
    2 * (round entries o state states).1.notSeen.card + (round entries o state states).2.length <
      2 * o.notSeen.card + (state :: states).length ∧ (round entries o state states).1.notSeen ⊆ o.notSeen := by
  rcases round_cases o state states with ⟨pre, dep, rest, t, -, -, hdep, -, hround⟩ | ⟨-, hround⟩
  · rw [hround]
    have hcard := Finset.card_erase_of_mem hdep
    have hpos := Finset.card_pos.mpr ⟨dep, hdep⟩
    refine ⟨?_, Finset.erase_subset dep o.notSeen⟩
    simp only [List.length_cons, hcard]
    omega
  · rw [hround]
    exact ⟨by simp, subset_rfl⟩

theorem insertLoop_run (hwf : EntriesWf entries D) (P : CausalOrder → List InsertState → Prop)
    (hP : ∀ o state states, Inv entries D o (state :: states) → P o (state :: states) →
      P (round entries o state states).1 (round entries o state states).2) :
    ∀ fuel o stack, Inv entries D o stack → P o stack → 2 * o.notSeen.card + stack.length ≤ fuel →
      ∃ o', insertLoop entries fuel o stack = some o' ∧ Inv entries D o' [] ∧ P o' [] ∧ o'.notSeen ⊆ o.notSeen
  | _, o, [], hinv, hp, _ => ⟨o, by cases ‹ℕ› <;> rfl, hinv, hp, subset_rfl⟩
  | 0, _, _ :: _, _, _, hfuel => absurd hfuel (by simp)
  | fuel + 1, o, state :: states, hinv, hp, hfuel => by
    obtain ⟨hlt, hsub⟩ := @round_measure_lt entries o state states
    obtain ⟨o', hrun, hinv', hp', hsub'⟩ :=
      insertLoop_run hwf P hP fuel _ _ (hinv.round hwf) (hP o state states hinv hp) (by omega)
    exact ⟨o', by rw [insertLoop_succ, hrun], hinv', hp', hsub'.trans hsub⟩

theorem sortLoop_run (hwf : EntriesWf entries D) (P : CausalOrder → List InsertState → Prop)
    (hP : ∀ o state states, Inv entries D o (state :: states) → P o (state :: states) →
      P (round entries o state states).1 (round entries o state states).2)
    (hpop : ∀ o key t, Inv entries D o [] → P o [] → key ∈ o.notSeen → entries key = some t →
      P ⟨o.notSeen.erase key, o.output⟩ [InsertState.new t]) :
    ∀ fuel o, Inv entries D o [] → P o [] → o.notSeen.card < fuel →
      ∃ o', sortLoop entries fuel o = some o' ∧ Inv entries D o' [] ∧ P o' [] ∧ o'.notSeen = ∅
  | 0, _, _, _, hfuel => absurd hfuel (Nat.not_lt_zero _)
  | fuel + 1, o, hinv, hp, hfuel => by
    cases hfirst : o.popFirst entries with
    | none =>
      exact ⟨o, by simp [sortLoop, hfirst], hinv, hp,
        notSeen_eq_empty_of_popFirst (fun k hk => hwf.ne_none k (hinv.notSeen_subset hk)) hfirst⟩
    | some popped =>
      obtain ⟨t, o₁⟩ := popped
      obtain ⟨key, hkey, hentry, rfl⟩ := popFirst_eq_some hfirst
      -- the least unseen transaction is inserted, which sees it and perhaps more
      have hinv₁ : Inv entries D ⟨o.notSeen.erase key, o.output⟩ [InsertState.new t] := hinv.push hwf hkey hentry
      obtain ⟨o₂, hrun, hinv₂, hp₂, hsub⟩ := insertLoop_run hwf P hP (2 * (o.notSeen.erase key).card + 1) _ _ hinv₁
        (hpop o key t hinv hp hkey hentry) (by simp)
      have hcard : o₂.notSeen.card < fuel := by
        have hle : o₂.notSeen.card ≤ (o.notSeen.erase key).card := Finset.card_le_card hsub
        have herase := Finset.card_erase_of_mem hkey
        have hpos := Finset.card_pos.mpr ⟨key, hkey⟩
        omega
      obtain ⟨o₃, hrun₃, hinv₃, hp₃, hempty⟩ := sortLoop_run hwf P hP hpop fuel o₂ hinv₂ hp₂ hcard
      exact ⟨o₃, by simp [sortLoop, hfirst, CausalOrder.insert, hrun, hrun₃], hinv₃, hp₃, hempty⟩

/-! ### Causal order -/

variable (entries) in
/-- The transaction `a` depends on `b`: `b` is among the dependencies of `a`'s entry. -/
def Dep (a b : ℕ) : Prop := ∃ t, entries a = some t ∧ b ∈ t.dependencies

variable (entries D) in
/-- The dependencies between the keys, with no cycle. -/
def Acyclic : Prop := ∀ k ∈ D, ¬ Relation.TransGen (fun a b => a ∈ D ∧ b ∈ D ∧ Dep entries a b) k k

/-- Each state on the stack visits a dependency of the state below it. -/
def Chain : List InsertState → Prop
  | upper :: lower :: rest => upper.transaction.digest ∈ lower.transaction.dependencies ∧ Chain (lower :: rest)
  | _ => True

variable (D) in
/-- Of the dependencies in `D` of each state, those it has no longer left to visit are
output, but for the one the state just above it visits. -/
def Visited (out : List ℕ) : Option ℕ → List InsertState → Prop
  | _, [] => True
  | above, s :: rest =>
    (∀ b ∈ s.transaction.dependencies, b ∈ D → b ∉ s.dependencies → b ∈ out ∨ above = some b) ∧
      Visited out (some s.transaction.digest) rest

variable (entries D) in
structure TopoInv (o : CausalOrder) (stack : List InsertState) : Prop where
  pending : ∀ s ∈ stack, ∀ d ∈ s.dependencies, d ∈ s.transaction.dependencies
  chain : Chain stack
  visited : Visited D o.outputDigests none stack
  closed : ∀ e ∈ o.output, ∀ b, Dep entries e.transactionDigest b → b ∈ D → b ∈ o.outputDigests
  sorted : o.output.Pairwise fun x y => ¬ Dep entries x.transactionDigest y.transactionDigest

theorem Chain.tail {state : InsertState} {states : List InsertState} (h : Chain (state :: states)) : Chain states := by
  cases states with
  | nil => trivial
  | cons lower rest => exact h.2

theorem Chain.setDependencies {state : InsertState} {states : List InsertState} (h : Chain (state :: states))
    (deps : List ℕ) : Chain (⟨deps, state.transaction⟩ :: states) := by
  cases states with
  | nil => trivial
  | cons lower rest => exact h

theorem Visited.mono {out out' : List ℕ} (hout : ∀ b ∈ out, b ∈ out') :
    ∀ {above : Option ℕ} {stack : List InsertState}, Visited D out above stack → Visited D out' above stack
  | _, [], _ => trivial
  | _, _ :: _, ⟨htop, hrest⟩ =>
    ⟨fun b hb hD hleft => (htop b hb hD hleft).imp_left (hout b), Visited.mono hout hrest⟩

theorem Chain.reach {top : InsertState} :
    ∀ {rest : List InsertState}, Chain (top :: rest) →
      (∀ s ∈ top :: rest, s.transaction.digest ∈ D ∧ entries s.transaction.digest = some s.transaction) →
      ∀ s ∈ top :: rest,
        Relation.ReflTransGen (fun a b => a ∈ D ∧ b ∈ D ∧ Dep entries a b) s.transaction.digest top.transaction.digest
  | [], _, _, s, hs => by rw [List.mem_singleton.mp hs]
  | lower :: rest, hchain, hstack, s, hs => by
    rcases List.mem_cons.mp hs with rfl | hs
    · exact .refl
    · have hlower := Chain.reach hchain.2 (fun s' hs' => hstack s' (List.mem_cons_of_mem top hs')) s hs
      have hstep : (lower.transaction.digest ∈ D ∧ top.transaction.digest ∈ D) ∧
          Dep entries lower.transaction.digest top.transaction.digest :=
        ⟨⟨(hstack lower (by simp)).1, (hstack top (by simp)).1⟩, lower.transaction, (hstack lower (by simp)).2,
          hchain.1⟩
      exact hlower.tail ⟨hstep.1.1, hstep.1.2, hstep.2⟩

theorem Inv.stack_mem {o : CausalOrder} {stack : List InsertState}
    (h : Inv entries D o stack) :
    ∀ s ∈ stack, s.transaction.digest ∈ D ∧ entries s.transaction.digest = some s.transaction :=
  fun s hs => ⟨(h.mem_iff _).mpr (.inr (.inl (List.mem_map_of_mem hs))), h.stack_entries s hs⟩

theorem mem_output_of_dep_top (hacyclic : Acyclic entries D) {o : CausalOrder}
    {top : InsertState} {rest : List InsertState} (hinv : Inv entries D o (top :: rest)) (hchain : Chain (top :: rest))
    {b : ℕ} (hb : b ∈ top.transaction.dependencies) (hD : b ∈ D) (hseen : b ∉ o.notSeen) : b ∈ o.outputDigests := by
  rcases (hinv.mem_iff b).mp hD with hnot | hstack | hout
  · exact absurd hnot hseen
  · exfalso
    obtain ⟨s, hs, rfl⟩ := List.mem_map.mp hstack
    have hreach := Chain.reach hchain hinv.stack_mem s hs
    have htop := hinv.stack_mem top List.mem_cons_self
    exact hacyclic _ hD (Relation.TransGen.tail' hreach ⟨htop.1, hD, top.transaction, htop.2, hb⟩)
  · exact hout

theorem not_mem_notSeen_of_remove (hwf : EntriesWf entries D) {o : CausalOrder} {d : ℕ} (hd : d ∈ D)
    (h : o.remove entries d = none) : d ∉ o.notSeen := by
  intro hmem
  obtain ⟨t, ht⟩ := Option.ne_none_iff_exists'.mp (hwf.ne_none d hd)
  simp [CausalOrder.remove, hmem, ht] at h

theorem mem_dependencies_new {t : TransactionDependencies} {d : ℕ} (h : d ∈ (InsertState.new t).dependencies) :
    d ∈ t.dependencies := by
  simpa [InsertState.new] using h

theorem Visited.pop {out out' : List ℕ} {a : ℕ} (ha : a ∈ out') (hout : ∀ b ∈ out, b ∈ out') :
    ∀ {stack : List InsertState}, Visited D out (some a) stack → Visited D out' none stack
  | [], _ => trivial
  | _ :: _, ⟨htop, hrest⟩ =>
    ⟨fun b hb hD hleft => .inl ((htop b hb hD hleft).elim (hout b) (fun hab => Option.some_injective _ hab ▸ ha)),
      hrest.mono hout⟩

@[simp] theorem outputDigests_append (output : List TransactionEffects) (notSeen : Finset ℕ) (e : TransactionEffects) :
    (⟨notSeen, output ++ [e]⟩ : CausalOrder).outputDigests = output.map (·.transactionDigest) ++ [e.transactionDigest] := by
  simp [CausalOrder.outputDigests]

theorem TopoInv.round (hwf : EntriesWf entries D) (hacyclic : Acyclic entries D) {o : CausalOrder}
    {state : InsertState} {states : List InsertState} (hinv : Inv entries D o (state :: states))
    (h : TopoInv entries D o (state :: states)) :
    TopoInv entries D (round entries o state states).1 (round entries o state states).2 := by
  have htop := hinv.stack_mem state List.mem_cons_self
  obtain ⟨hvisited, hbelow⟩ := h.visited
  -- a dependency of the top state that is no longer unseen is output
  have houtput : ∀ b ∈ state.transaction.dependencies, b ∈ D → o.remove entries b = none → b ∈ o.outputDigests :=
    fun b hb hD hremove =>
      mem_output_of_dep_top hacyclic hinv h.chain hb hD (not_mem_notSeen_of_remove hwf hD hremove)
  rcases round_cases o state states with ⟨pre, dep, rest, t, hdeps, hpre, hdep, hentry, hround⟩ | ⟨hall, hround⟩
  · -- a new state visits `dep`
    rw [hround]
    have ht : t.digest = dep := hwf.digest_eq dep t hentry
    have hrest : ∀ d ∈ rest, d ∈ state.dependencies := fun d hd => by rw [hdeps]; simp [hd]
    refine ⟨?_, ⟨?_, h.chain.setDependencies rest⟩, ⟨?_, ?_, hbelow⟩, h.closed, h.sorted⟩
    · intro s hs d hd
      rcases List.mem_cons.mp hs with rfl | hs
      · exact mem_dependencies_new hd
      rcases List.mem_cons.mp hs with rfl | hs
      · exact h.pending state List.mem_cons_self d (hrest d hd)
      · exact h.pending s (List.mem_cons_of_mem _ hs) d hd
    · rw [InsertState.new, ht]
      exact h.pending state List.mem_cons_self dep (by rw [hdeps]; simp)
    · exact fun b hb _ hleft => absurd (by simpa [InsertState.new] using hb) hleft
    · intro b hb hD hleft
      by_cases hbs : b ∈ state.dependencies
      · rw [hdeps] at hbs
        rcases List.mem_append.mp hbs with hbpre | hbcons
        · exact .inl (houtput b hb hD (hpre b hbpre))
        · rcases List.mem_cons.mp hbcons with rfl | hbrest
          · exact .inr (by rw [InsertState.new, ht])
          · exact absurd hbrest hleft
      · exact (hvisited b hb hD hbs).imp_right fun hnone => absurd hnone (by simp)
  · -- the top state is popped and its transaction output
    rw [hround]
    have hdigest : state.transaction.effects.transactionDigest = state.transaction.digest :=
      hwf.effects_digest _ _ htop.2
    have hmono : ∀ b ∈ o.outputDigests, b ∈ (⟨o.notSeen, o.output ++ [state.transaction.effects]⟩ : CausalOrder).outputDigests :=
      fun b hb => by simp only [outputDigests_append]; exact List.mem_append_left _ hb
    -- every dependency of the popped transaction in `D` is output
    have hdone : ∀ b ∈ state.transaction.dependencies, b ∈ D → b ∈ o.outputDigests := by
      intro b hb hD
      by_cases hbs : b ∈ state.dependencies
      · exact houtput b hb hD (hall b hbs)
      · exact (hvisited b hb hD hbs).resolve_right (by simp)
    refine ⟨fun s hs => h.pending s (List.mem_cons_of_mem _ hs), h.chain.tail,
      Visited.pop (by simp [hdigest]) hmono hbelow, ?_, ?_⟩
    · intro e he b hdepb hD
      rcases List.mem_append.mp he with he | he
      · exact hmono b (h.closed e he b hdepb hD)
      · rw [List.mem_singleton.mp he, hdigest] at hdepb
        obtain ⟨t', ht', hbt'⟩ := hdepb
        rw [htop.2, Option.some_inj] at ht'
        exact hmono b (hdone b (ht' ▸ hbt') hD)
    · refine List.pairwise_append.mpr ⟨h.sorted, List.pairwise_singleton _ _, ?_⟩
      intro x hx y hy hdepxy
      rw [List.mem_singleton.mp hy, hdigest] at hdepxy
      -- the popped digest was on the stack, so it was not output before
      exact hinv.not_mem_output_of_stack (by simp [stackDigests]) (h.closed x hx _ hdepxy htop.1)

theorem TopoInv.start {o : CausalOrder} (h : TopoInv entries D o []) (key : ℕ) (t : TransactionDependencies) :
    TopoInv entries D ⟨o.notSeen.erase key, o.output⟩ [InsertState.new t] :=
  ⟨fun s hs d hd => by rw [List.mem_singleton.mp hs] at hd ⊢; exact mem_dependencies_new hd, trivial,
    ⟨fun _ hb _ hleft => absurd (by simpa [InsertState.new] using hb) hleft, trivial⟩, h.closed, h.sorted⟩

end Search


/-! ### `causal_sort` -/

/-- The effects `a` depend on `b`: `b` is among the dependencies of `a`'s effects, or
`a` mutates a shared object version that `b` only reads. -/
def DependsOn (a b : TransactionEffects) : Prop :=
  b.transactionDigest ∈ a.dependencies ∨
    ∃ key, (∃ kind ∈ a.inputSharedObjects, kind.mutateKey? = some key) ∧
      ∃ kind ∈ b.inputSharedObjects, kind.readKey? = some key

/-- The dependencies among `effects` have no cycle. -/
def DependsOnAcyclic (effects : List TransactionEffects) : Prop :=
  ∀ e ∈ effects, ¬ Relation.TransGen (fun a b => a ∈ effects ∧ b ∈ effects ∧ DependsOn a b) e e

/-- `sorted` puts `effects` in causal order: it is a permutation of them in which, where
their dependencies have no cycle, none comes before one it depends on. -/
structure CausallySorted (effects sorted : List TransactionEffects) : Prop where
  perm : sorted.Perm effects
  causal : DependsOnAcyclic effects → sorted.Pairwise fun a b => ¬ DependsOn a b

section Sorting

variable {effects : List TransactionEffects}

@[simp] theorem mem_notSeen_fromVec {k : ℕ} :
    k ∈ (CausalOrder.fromVec effects).notSeen ↔ ∃ e ∈ effects, e.transactionDigest = k := by
  simp [CausalOrder.fromVec]

theorem entriesWf_fromVec (effects : List TransactionEffects) :
    EntriesWf (entries effects) (CausalOrder.fromVec effects).notSeen := by
  refine ⟨?_, fun k t h => (entries_eq_some h).2.2, fun k t h => (entries_eq_some h).2.1⟩
  intro k hk
  obtain ⟨e, he, rfl⟩ := Iff.mp mem_notSeen_fromVec hk
  simp only [entries, ne_eq, Option.map_eq_none_iff, List.find?_eq_none, List.mem_reverse, decide_eq_true_eq,
    not_forall, not_not]
  exact ⟨e, he, rfl⟩

theorem inv_fromVec (effects : List TransactionEffects) :
    Inv (entries effects) (CausalOrder.fromVec effects).notSeen (CausalOrder.fromVec effects) [] :=
  ⟨by simp [stackDigests, CausalOrder.outputDigests, CausalOrder.fromVec], by simp, by simp [CausalOrder.fromVec]⟩

theorem topoInv_fromVec (effects : List TransactionEffects) :
    TopoInv (entries effects) (CausalOrder.fromVec effects).notSeen (CausalOrder.fromVec effects) [] :=
  ⟨by simp, trivial, trivial, by simp [CausalOrder.fromVec], by simp [CausalOrder.fromVec]⟩

theorem sortLoop_fromVec (effects : List TransactionEffects) :
    ∃ o, sortLoop (entries effects) ((CausalOrder.fromVec effects).notSeen.card + 1) (CausalOrder.fromVec effects) =
      some o ∧ Inv (entries effects) (CausalOrder.fromVec effects).notSeen o [] ∧ o.notSeen = ∅ := by
  obtain ⟨o, hrun, hinv, -, hempty⟩ := sortLoop_run (entriesWf_fromVec effects) (fun _ _ => True)
    (fun _ _ _ _ _ => trivial) (fun _ _ _ _ _ _ _ => trivial) _ _ (inv_fromVec effects) trivial (Nat.lt_succ_self _)
  exact ⟨o, hrun, hinv, hempty⟩

theorem mem_of_mem_output {D : Finset ℕ} {o : CausalOrder} {stack : List InsertState}
    (hinv : Inv (entries effects) D o stack) {e : TransactionEffects} (he : e ∈ o.output) : e ∈ effects := by
  obtain ⟨t, ht, rfl⟩ := hinv.output_entries e he
  exact (entries_eq_some ht).1

/-- `causal_sort` never panics and always returns, on every list of effects. -/
theorem causalSort_isSome (effects : List TransactionEffects) : (causalSort effects).isSome := by
  obtain ⟨o, hrun, -, -⟩ := sortLoop_fromVec effects
  simp [causalSort, hrun]

section Distinct

variable (hdistinct : (effects.map (·.transactionDigest)).Nodup)
include hdistinct

theorem eq_of_transactionDigest_eq {a b : TransactionEffects} (ha : a ∈ effects) (hb : b ∈ effects)
    (h : a.transactionDigest = b.transactionDigest) : a = b :=
  List.inj_on_of_nodup_map hdistinct ha hb h

theorem exists_mem_digest_iff {a : TransactionEffects} (ha : a ∈ effects) (P : TransactionEffects → Prop) :
    (∃ e ∈ effects, e.transactionDigest = a.transactionDigest ∧ P e) ↔ P a := by
  constructor
  · rintro ⟨e, he, hdigest, hp⟩
    rwa [eq_of_transactionDigest_eq hdistinct he ha hdigest] at hp
  · exact fun hp => ⟨a, ha, rfl, hp⟩

theorem dep_entries_iff {a b : TransactionEffects} (ha : a ∈ effects) (hb : b ∈ effects) :
    Dep (entries effects) a.transactionDigest b.transactionDigest ↔ DependsOn a b := by
  rw [Dep, entries_of_mem hdistinct ha]
  simp only [Option.some.injEq, exists_eq_left', mem_dependencies_fromEffects]
  refine or_congr Iff.rfl (exists_congr fun key => and_congr ?_ ?_)
  · exact exists_mem_digest_iff hdistinct ha fun w => ∃ kind ∈ w.inputSharedObjects, kind.mutateKey? = some key
  · exact exists_mem_digest_iff hdistinct hb fun r => ∃ kind ∈ r.inputSharedObjects, kind.readKey? = some key

theorem transGen_dependsOn {a b : ℕ}
    (h : Relation.TransGen (fun a b => a ∈ (CausalOrder.fromVec effects).notSeen ∧
      b ∈ (CausalOrder.fromVec effects).notSeen ∧ Dep (entries effects) a b) a b) :
    ∃ ea ∈ effects, ∃ eb ∈ effects, ea.transactionDigest = a ∧ eb.transactionDigest = b ∧
      Relation.TransGen (fun a b => a ∈ effects ∧ b ∈ effects ∧ DependsOn a b) ea eb := by
  induction h with
  | single hstep =>
    obtain ⟨ha, hb, hdep⟩ := hstep
    obtain ⟨ea, hea, rfl⟩ := Iff.mp mem_notSeen_fromVec ha
    obtain ⟨eb, heb, rfl⟩ := Iff.mp mem_notSeen_fromVec hb
    exact ⟨ea, hea, eb, heb, rfl, rfl, .single ⟨hea, heb, (dep_entries_iff hdistinct hea heb).mp hdep⟩⟩
  | tail _ hstep ih =>
    obtain ⟨ea, hea, eb, heb, rfl, rfl, hpath⟩ := ih
    obtain ⟨hb, hc, hdep⟩ := hstep
    obtain ⟨eb', heb', hdigest⟩ := Iff.mp mem_notSeen_fromVec hb
    obtain ⟨ec, hec, rfl⟩ := Iff.mp mem_notSeen_fromVec hc
    -- the path's last effects and the step's first are the same effects
    rw [← hdigest, eq_of_transactionDigest_eq hdistinct heb' heb hdigest] at hdep
    exact ⟨ea, hea, ec, hec, rfl, rfl, hpath.tail ⟨heb, hec, (dep_entries_iff hdistinct heb hec).mp hdep⟩⟩

theorem acyclic_entries (hacyclic : DependsOnAcyclic effects) :
    Acyclic (entries effects) (CausalOrder.fromVec effects).notSeen := by
  intro k _ hcycle
  obtain ⟨ea, hea, eb, heb, hda, hdb, hpath⟩ := transGen_dependsOn hdistinct hcycle
  rw [eq_of_transactionDigest_eq hdistinct heb hea (hdb.trans hda.symm)] at hpath
  exact hacyclic ea hea hpath

theorem perm_output {o : CausalOrder} (hinv : Inv (entries effects) (CausalOrder.fromVec effects).notSeen o [])
    (hempty : o.notSeen = ∅) : o.output.Perm effects := by
  have hdigests : (o.outputDigests : Multiset ℕ) = (CausalOrder.fromVec effects).notSeen.val := by
    simpa [hempty, stackDigests] using hinv.partition
  have hnodup : o.output.Nodup := by
    have : o.outputDigests.Nodup := by
      rw [← Multiset.coe_nodup, hdigests]
      exact Finset.nodup _
    exact this.of_map _
  have hmem : ∀ e ∈ o.output, e ∈ effects := fun e he => mem_of_mem_output hinv he
  refine (List.perm_ext_iff_of_nodup hnodup (hdistinct.of_map _)).mpr fun e => ⟨hmem e, fun he => ?_⟩
  -- the digest of `e` is output, by effects that can only be `e`
  have hout : e.transactionDigest ∈ o.outputDigests := by
    rw [← Multiset.mem_coe, hdigests, Finset.mem_val, mem_notSeen_fromVec]
    exact ⟨e, he, rfl⟩
  obtain ⟨e', he', hdigest⟩ := List.mem_map.mp hout
  rwa [eq_of_transactionDigest_eq hdistinct (hmem e' he') he hdigest] at he'

theorem entries_perm {effects' : List TransactionEffects} (hperm : effects'.Perm effects) :
    entries effects' = entries effects := by
  have hdistinct' : (effects'.map (·.transactionDigest)).Nodup := ((hperm.map _).nodup_iff).mpr hdistinct
  funext k
  by_cases hk : ∃ e ∈ effects, e.transactionDigest = k
  · obtain ⟨e, he, rfl⟩ := hk
    rw [entries_of_mem hdistinct' (Iff.mpr hperm.mem_iff he), entries_of_mem hdistinct he]
    have hdeps : ∀ d, d ∈ (TransactionDependencies.fromEffects e (RWLockDependencyBuilder.fromEffects effects')).dependencies ↔
        d ∈ (TransactionDependencies.fromEffects e (RWLockDependencyBuilder.fromEffects effects)).dependencies := by
      intro d
      simp only [mem_dependencies_fromEffects, hperm.mem_iff]
    simp only [TransactionDependencies.fromEffects] at hdeps ⊢
    rw [Finset.ext hdeps]
  · -- no effects have the digest `k`, in either order
    have hnone : ∀ l : List TransactionEffects, l.Perm effects → entries l k = none := by
      intro l hl
      simp only [entries, Option.map_eq_none_iff, List.find?_eq_none, List.mem_reverse, decide_eq_true_eq]
      exact fun x hx hxk => hk ⟨x, Iff.mp hl.mem_iff hx, hxk⟩
    rw [hnone effects' hperm, hnone effects (List.Perm.refl _)]

theorem causalSort_perm {effects' : List TransactionEffects} (hperm : effects'.Perm effects) :
    causalSort effects' = causalSort effects := by
  have hfromVec : CausalOrder.fromVec effects' = CausalOrder.fromVec effects := by
    simp only [CausalOrder.fromVec, List.toFinset_eq_of_perm _ _ (hperm.map _)]
  simp only [causalSort, hfromVec, entries_perm hdistinct hperm]

theorem pairwise_output (hacyclic : DependsOnAcyclic effects) {o : CausalOrder}
    (hrun : sortLoop (entries effects) ((CausalOrder.fromVec effects).notSeen.card + 1) (CausalOrder.fromVec effects) =
      some o) :
    o.output.Pairwise fun a b => ¬ DependsOn a b := by
  have hwf := entriesWf_fromVec effects
  -- the same run, with `TopoInv` carried along
  obtain ⟨o', hrun', hinv', htopo, -⟩ := sortLoop_run hwf (TopoInv (entries effects) (CausalOrder.fromVec effects).notSeen)
    (fun _ _ _ hinv h => h.round hwf (acyclic_entries hdistinct hacyclic) hinv) (fun _ key t _ h _ _ => h.start key t)
    _ _ (inv_fromVec effects) (topoInv_fromVec effects) (Nat.lt_succ_self _)
  rw [hrun, Option.some_inj] at hrun'
  subst hrun'
  refine htopo.sorted.imp_of_mem fun ha hb hndep hdep => hndep ?_
  exact (dep_entries_iff hdistinct (mem_of_mem_output hinv' ha) (mem_of_mem_output hinv' hb)).mpr hdep

end Distinct

/-- `causal_sort` on effects of distinct digests returns them in causal order, and
returns the same list for every order they are given in. -/
theorem causalSort_causallySorted (effects : List TransactionEffects)
    (hdistinct : (effects.map (·.transactionDigest)).Nodup) :
    ∃ sorted, causalSort effects = some sorted ∧ CausallySorted effects sorted ∧
      ∀ effects', effects'.Perm effects → causalSort effects' = some sorted := by
  obtain ⟨o, hrun, hinv, hempty⟩ := sortLoop_fromVec effects
  have hsort : causalSort effects = some o.output := by simp [causalSort, hrun]
  refine ⟨o.output, hsort, ⟨perm_output hdistinct hinv hempty, fun hacyclic => pairwise_output hdistinct hacyclic hrun⟩,
    fun effects' hperm => ?_⟩
  rw [causalSort_perm hdistinct hperm, hsort]

/-- The effects of the source's `test_causal_order`. -/
def testCausalOrder : List TransactionEffects :=
  [⟨1, [2, 3], []⟩, ⟨2, [3, 4], []⟩, ⟨3, [], []⟩, ⟨4, [], []⟩]

example : (causalSort testCausalOrder).map (List.map (·.transactionDigest)) = some [3, 4, 2, 1] := by decide

theorem causalSort_causallySorted_testCausalOrder :
    (testCausalOrder.map (·.transactionDigest)).Nodup ∧
      ∃ sorted, causalSort testCausalOrder = some sorted ∧ CausallySorted testCausalOrder sorted ∧
        ∀ effects', effects'.Perm testCausalOrder → causalSort effects' = some sorted :=
  ⟨by decide, causalSort_causallySorted testCausalOrder (by decide)⟩

end Sorting

end Iota.Checkpoints
