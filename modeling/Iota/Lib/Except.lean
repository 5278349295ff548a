import Mathlib

/-! Reasoning about code in the `Except` monad: a successful bind is a
successful first step followed by a successful rest, a failed one fails at
one of the two, and a loop run with `List.foldlM` keeps every invariant its
body keeps, up to the step where it fails. -/

namespace Iota.Lib

universe u v

variable {ε : Type u} {α β : Type v}

@[simp] theorem except_bind_eq_ok {x : Except ε α} {f : α → Except ε β} {b : β} :
    x >>= f = .ok b ↔ ∃ a, x = .ok a ∧ f a = .ok b := by
  cases x <;> simp [bind, Except.bind]

@[simp] theorem except_map_eq_ok {x : Except ε α} {f : α → β} {b : β} :
    f <$> x = .ok b ↔ ∃ a, x = .ok a ∧ f a = b := by
  cases x <;> simp [Functor.map, Except.map]

@[simp] theorem except_ok_bind {a : α} {f : α → Except ε β} : (Except.ok a : Except ε α) >>= f = f a := rfl

@[simp] theorem except_pure_bind {a : α} {f : α → Except ε β} : (pure a : Except ε α) >>= f = f a := rfl

@[simp] theorem except_pure_eq_ok {a b : α} : (pure a : Except ε α) = .ok b ↔ a = b := by
  simp [pure, Except.pure]

@[simp] theorem except_throw_ne_ok {e : ε} {a : α} : (throw e : Except ε α) ≠ .ok a := by
  simp [throw, throwThe, MonadExceptOf.throw]

@[simp] theorem except_mapError_eq_ok {ε' : Type u} {x : Except ε α} {f : ε → ε'} {a : α} :
    x.mapError f = .ok a ↔ x = .ok a := by
  cases x <;> simp [Except.mapError]

theorem foldlM_except_induction {f : β → α → Except ε β} {P : β → Prop} :
    ∀ {l : List α} {init r : β}, P init → (∀ s a s', a ∈ l → P s → f s a = .ok s' → P s') →
      l.foldlM f init = .ok r → P r
  | [], init, r, hinit, _, h => by
    simp only [List.foldlM_nil, except_pure_eq_ok] at h
    exact h ▸ hinit
  | a :: l, init, r, hinit, hstep, h => by
    rw [List.foldlM_cons, except_bind_eq_ok] at h
    obtain ⟨s, hs, hrest⟩ := h
    have hPs : P s := hstep init a s List.mem_cons_self hinit hs
    exact foldlM_except_induction hPs (fun s b s' hb => hstep s b s' (List.mem_cons_of_mem a hb)) hrest

theorem foldlM_except_exists_ok {f : β → α → Except ε β} {P : List α → β → Prop} :
    ∀ {l : List α} {init : β} {done : List α}, P done init →
      (∀ s a done', a ∈ l → P done' s → ∃ s', f s a = .ok s' ∧ P (done' ++ [a]) s') →
      ∃ r, l.foldlM f init = .ok r ∧ P (done ++ l) r
  | [], init, done, hinit, _ => ⟨init, rfl, by rwa [List.append_nil]⟩
  | a :: l, init, done, hinit, hstep => by
    obtain ⟨s, hs, hPs⟩ := hstep init a done List.mem_cons_self hinit
    obtain ⟨r, hr, hPr⟩ := foldlM_except_exists_ok hPs
      (fun s b done' hb => hstep s b done' (List.mem_cons_of_mem a hb))
    refine ⟨r, ?_, by rwa [List.append_assoc, List.singleton_append] at hPr⟩
    rw [List.foldlM_cons, hs, except_ok_bind, hr]

theorem foldlM_except_exists_ok_at {f : β → α → Except ε β} {P : List α → β → Prop} {L : List α} :
    ∀ {l : List α} {init : β} {done : List α}, done ++ l = L → P done init →
      (∀ s a pre post, pre ++ a :: post = L → P pre s → ∃ s', f s a = .ok s' ∧ P (pre ++ [a]) s') →
      ∃ r, l.foldlM f init = .ok r ∧ P L r
  | [], init, done, hL, hinit, _ => ⟨init, rfl, by rwa [← hL, List.append_nil]⟩
  | a :: l, init, done, hL, hinit, hstep => by
    obtain ⟨s, hs, hPs⟩ := hstep init a done l hL hinit
    obtain ⟨r, hr, hPr⟩ := foldlM_except_exists_ok_at (by rwa [List.append_assoc, List.singleton_append]) hPs hstep
    exact ⟨r, by rw [List.foldlM_cons, hs, except_ok_bind, hr], hPr⟩

theorem except_bind_eq_error {x : Except ε α} {f : α → Except ε β} {e : ε} :
    x >>= f = .error e ↔ x = .error e ∨ ∃ a, x = .ok a ∧ f a = .error e := by
  cases x <;> simp [bind, Except.bind]

theorem except_map_eq_error {x : Except ε α} {f : α → β} {e : ε} : f <$> x = .error e ↔ x = .error e := by
  cases x <;> simp [Functor.map, Except.map]

theorem foldlM_except_error {f : β → α → Except ε β} {P : β → Prop} {e : ε} :
    ∀ {l : List α} {init : β}, P init → (∀ s a s', a ∈ l → P s → f s a = .ok s' → P s') →
      l.foldlM f init = .error e → ∃ s a, a ∈ l ∧ P s ∧ f s a = .error e
  | [], _, _, _, h => by simp [pure, Except.pure] at h
  | a :: l, init, hinit, hstep, h => by
    rw [List.foldlM_cons, except_bind_eq_error] at h
    rcases h with h | ⟨s, hs, hrest⟩
    · exact ⟨init, a, List.mem_cons_self, hinit, h⟩
    · obtain ⟨s', b, hb, hs', h'⟩ := foldlM_except_error (hstep init a s List.mem_cons_self hinit hs)
        (fun s b s' hb => hstep s b s' (List.mem_cons_of_mem a hb)) hrest
      exact ⟨s', b, List.mem_cons_of_mem a hb, hs', h'⟩

theorem mapM_except_nil_eq_ok {f : α → Except ε β} {r : List β} : ([] : List α).mapM f = .ok r ↔ r = [] := by
  rw [List.mapM_nil, except_pure_eq_ok, eq_comm]

theorem mapM_except_cons_eq_ok {f : α → Except ε β} {a : α} {l : List α} {r : List β} :
    (a :: l).mapM f = .ok r ↔ ∃ b bs, f a = .ok b ∧ l.mapM f = .ok bs ∧ r = b :: bs := by
  simp only [List.mapM_cons, except_bind_eq_ok, except_pure_eq_ok]
  constructor
  · rintro ⟨b, hb, bs, hbs, rfl⟩
    exact ⟨b, bs, hb, hbs, rfl⟩
  · rintro ⟨b, bs, hb, hbs, rfl⟩
    exact ⟨b, hb, bs, hbs, rfl⟩

theorem exists_ok_of_mapM_except_eq_ok {f : α → Except ε β} :
    ∀ {l : List α} {r : List β}, l.mapM f = .ok r → ∀ a ∈ l, ∃ b, f a = .ok b
  | [], _, _, a, ha => absurd ha List.not_mem_nil
  | x :: l, r, h, a, ha => by
    obtain ⟨b, bs, hb, hbs, -⟩ := Iff.mp mapM_except_cons_eq_ok h
    rcases List.mem_cons.mp ha with rfl | ha
    · exact ⟨b, hb⟩
    · exact exists_ok_of_mapM_except_eq_ok hbs a ha

theorem mapM_except_eq_ok_map {f : α → Except ε β} {g : α → β} :
    ∀ {l : List α}, (∀ a ∈ l, f a = .ok (g a)) → l.mapM f = .ok (l.map g)
  | [], _ => rfl
  | a :: l, h => by
    rw [List.mapM_cons, h a List.mem_cons_self,
      mapM_except_eq_ok_map fun b hb => h b (List.mem_cons_of_mem a hb)]
    rfl

theorem mapM_option_eq_some_map {f : α → Option β} {g : α → β} :
    ∀ {l : List α}, (∀ a ∈ l, f a = some (g a)) → l.mapM f = some (l.map g)
  | [], _ => rfl
  | a :: l, h => by
    rw [List.mapM_cons, h a List.mem_cons_self,
      mapM_option_eq_some_map fun b hb => h b (List.mem_cons_of_mem a hb)]
    rfl

theorem foldlM_except_eq_ok_foldl {f : β → α → Except ε β} {g : β → α → β} :
    ∀ {l : List α} {init : β}, (∀ b, ∀ a ∈ l, f b a = .ok (g b a)) → l.foldlM f init = .ok (l.foldl g init)
  | [], _, _ => rfl
  | a :: l, init, h => by
    rw [List.foldlM_cons, h init a List.mem_cons_self, except_ok_bind,
      foldlM_except_eq_ok_foldl fun b c hc => h b c (List.mem_cons_of_mem a hc)]
    rfl

theorem foldlM_except_add_eq_ok {M : Type v} [AddMonoid M] {f : α → Except ε M} :
    ∀ {l : List α} {a r : M}, l.foldlM (fun acc x => do pure (acc + (← f x))) a = .ok r ↔
      ∃ bs, l.mapM f = .ok bs ∧ r = a + bs.sum
  | [], a, r => by
    simp only [List.foldlM_nil, List.mapM_nil, except_pure_eq_ok, exists_eq_left', List.sum_nil, add_zero]
    exact eq_comm
  | x :: l, a, r => by
    simp only [List.foldlM_cons, except_bind_eq_ok, except_pure_eq_ok, foldlM_except_add_eq_ok,
      mapM_except_cons_eq_ok]
    constructor
    · rintro ⟨_, ⟨b, hb, rfl⟩, bs, hbs, rfl⟩
      exact ⟨b :: bs, ⟨b, bs, hb, hbs, rfl⟩, by rw [List.sum_cons, add_assoc]⟩
    · rintro ⟨_, ⟨b, bs, hb, hbs, rfl⟩, rfl⟩
      exact ⟨a + b, ⟨b, hb, rfl⟩, bs, hbs, by rw [List.sum_cons, add_assoc]⟩

theorem findSomeM_except_eq_ok_some {β' : Type v} {f : α → Except ε (Option β')} {b : β'} :
    ∀ {l : List α}, l.findSomeM? f = .ok (some b) → ∃ a ∈ l, f a = .ok (some b)
  | [], h => by simp [pure, Except.pure] at h
  | a :: l, h => by
    rw [List.findSomeM?_cons, except_bind_eq_ok] at h
    obtain ⟨found, hfound, h⟩ := h
    cases found with
    | some b' =>
      obtain rfl := Option.some_inj.mp (Iff.mp except_pure_eq_ok h)
      exact ⟨a, List.mem_cons_self, hfound⟩
    | none =>
      obtain ⟨a', ha', h'⟩ := findSomeM_except_eq_ok_some h
      exact ⟨a', List.mem_cons_of_mem a ha', h'⟩

theorem findSomeM_except_exists_ok {β' : Type v} {f : α → Except ε (Option β')} :
    ∀ {l : List α}, (∀ a ∈ l, ∃ r, f a = .ok r) → ∃ r, l.findSomeM? f = .ok r
  | [], _ => ⟨none, rfl⟩
  | a :: l, h => by
    obtain ⟨r, hr⟩ := h a List.mem_cons_self
    rw [List.findSomeM?_cons, hr, except_ok_bind]
    cases r with
    | some b => exact ⟨some b, rfl⟩
    | none => exact findSomeM_except_exists_ok fun b hb => h b (List.mem_cons_of_mem a hb)

theorem filterAuxM_except_eq_ok {γ : Type} {f : γ → Except ε Bool} {g : γ → Bool} :
    ∀ {l acc : List γ}, (∀ a ∈ l, f a = .ok (g a)) → l.filterAuxM f acc = .ok ((l.filter g).reverse ++ acc)
  | [], _, _ => rfl
  | a :: l, acc, h => by
    rw [List.filterAuxM, h a List.mem_cons_self, except_ok_bind,
      filterAuxM_except_eq_ok fun b hb => h b (List.mem_cons_of_mem a hb)]
    cases hg : g a <;> simp [hg]

theorem filterM_except_eq_ok_filter {γ : Type} {f : γ → Except ε Bool} {g : γ → Bool} {l : List γ}
    (h : ∀ a ∈ l, f a = .ok (g a)) : l.filterM f = .ok (l.filter g) := by
  rw [List.filterM, filterAuxM_except_eq_ok h, except_ok_bind, List.append_nil, List.reverse_reverse]
  rfl

theorem forM_except_eq_ok {f : α → Except ε PUnit} :
    ∀ {l : List α}, l.forM f = .ok ⟨⟩ ↔ ∀ a ∈ l, f a = .ok ⟨⟩
  | [] => by simp only [List.not_mem_nil, IsEmpty.forall_iff, implies_true, iff_true]; rfl
  | a :: l => by
    unfold List.forM
    rw [except_bind_eq_ok, List.forall_mem_cons, ← forM_except_eq_ok]
    constructor
    · rintro ⟨⟨⟩, ha, hl⟩
      exact ⟨ha, hl⟩
    · rintro ⟨ha, hl⟩
      exact ⟨⟨⟩, ha, hl⟩

end Iota.Lib
