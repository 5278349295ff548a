import Iota.Core.CongestionSlots

/-! One scheduling step of `SharedObjectCongestionTracker` on the free lists:
the certificate's objects are initialized, the start time of either mode leaves
a slot of the certificate's duration free on every shared object, a deferral
blames some object, and the bump takes the slot out of the free list of every
object the certificate writes. -/

namespace Iota.Core.Congestion

open Iota.Lib ExecutionSlot

/-- The free slots of one object as the tracker keeps them: a free list, whose
last slot runs to `MAX_EXECUTION_TIME` when the tracker schedules after the
objects' last free slots. -/
structure SlotsWf (assignMinFreeExecutionSlot : Bool) (slots : ObjectExecutionSlots) : Prop where
  freeList : FreeList slots.slots
  last : assignMinFreeExecutionSlot = false →
    ∃ last, slots.slots.getLast? = some last ∧ last.endTime = MAX_EXECUTION_TIME

theorem SlotsWf.new (assign : Bool) : SlotsWf assign ObjectExecutionSlots.new where
  freeList := ⟨by simp [ObjectExecutionSlots.new, maxDurationSlot, ExecutionSlot.new, MAX_EXECUTION_TIME],
    by simp [ObjectExecutionSlots.new]⟩
  last := fun _ => ⟨maxDurationSlot, rfl, rfl⟩

theorem covers_new (x : ℕ) : Covers ObjectExecutionSlots.new.slots x ↔ x < MAX_EXECUTION_TIME := by
  simp [Covers, ObjectExecutionSlots.new, maxDurationSlot, Holds, ExecutionSlot.new]

namespace ObjectExecutionSlots

variable {slots : ObjectExecutionSlots} {last : ExecutionSlot}

theorem maxObjectFreeSlotStartTime_of_getLast (h : slots.slots.getLast? = some last) (d : ℕ) :
    slots.maxObjectFreeSlotStartTime d =
      if d ≤ MAX_EXECUTION_TIME - last.startTime then some last.startTime else none := by
  simp only [maxObjectFreeSlotStartTime, h, ge_iff_le]

theorem maxObjectOccupiedSlotEndTime_of_getLast (h : slots.slots.getLast? = some last) :
    slots.maxObjectOccupiedSlotEndTime = last.startTime := by
  simp [maxObjectOccupiedSlotEndTime, maxObjectFreeSlotStartTime_of_getLast h]

end ObjectExecutionSlots

/-- The certificate takes the object `o` mutably. -/
def Certificate.Writes (cert : Certificate) (o : ℕ) : Prop :=
  ∃ obj ∈ cert.sharedInputObjects, obj.id = o ∧ obj.mutable = true

/-- The certificate takes the object `o`. -/
def Certificate.Uses (cert : Certificate) (o : ℕ) : Prop := o ∈ cert.sharedInputObjects.map (·.id)

theorem Certificate.writes_iff_mem {cert : Certificate} {o : ℕ} :
    cert.Writes o ↔ o ∈ (cert.sharedInputObjects.filter (·.mutable)).map (·.id) := by
  simp only [Writes, List.mem_map, List.mem_filter]
  constructor
  · rintro ⟨obj, hobj, rfl, hmut⟩
    exact ⟨obj, ⟨hobj, hmut⟩, rfl⟩
  · rintro ⟨obj, ⟨hobj, hmut⟩, rfl⟩
    exact ⟨obj, hobj, rfl, hmut⟩

theorem Certificate.Writes.uses {cert : Certificate} {o : ℕ} (h : cert.Writes o) : cert.Uses o := by
  obtain ⟨obj, hobj, rfl, -⟩ := h
  exact List.mem_map_of_mem hobj

namespace SharedObjectCongestionTracker

variable {self : SharedObjectCongestionTracker}

/-- Every tracked object's free slots are as the tracker keeps them. -/
def Wf (self : SharedObjectCongestionTracker) : Prop :=
  ∀ o slots, self.objectExecutionSlots o = some slots → SlotsWf self.assignMinFreeExecutionSlot slots

/-- Every object of the list is tracked. -/
def Tracks (self : SharedObjectCongestionTracker) (objs : List SharedInputObject) : Prop :=
  ∀ obj ∈ objs, (self.objectExecutionSlots obj.id).isSome

/-- A slot of duration `d` from `s` lies in a free slot of every object of the list. -/
def Fits (self : SharedObjectCongestionTracker) (objs : List SharedInputObject) (s d : ℕ) : Prop :=
  ∀ obj ∈ objs, ∃ slots, self.objectExecutionSlots obj.id = some slots ∧
    ∃ free ∈ slots.slots, (ExecutionSlot.new s (s + d)).Within free

theorem Tracks.uses {cert : Certificate} (h : self.Tracks cert.sharedInputObjects) {o : ℕ} (hu : cert.Uses o) :
    (self.objectExecutionSlots o).isSome := by
  obtain ⟨obj, hobj, rfl⟩ := List.mem_map.mp hu
  exact h obj hobj

theorem expectSlots_eq_ok {o : ℕ} {message : String} {slots : ObjectExecutionSlots} :
    self.expectSlots o message = .ok slots ↔ self.objectExecutionSlots o = some slots := by
  cases h : self.objectExecutionSlots o <;> simp [expectSlots, h]

/-! ### `initialize_object_execution_slots` -/

section Initialize

variable (objs : List SharedInputObject)

@[simp] theorem initializeObjectExecutionSlots_mode : (self.initializeObjectExecutionSlots objs).mode = self.mode := by
  induction objs generalizing self with
  | nil => rfl
  | cons obj objs ih =>
    simp only [initializeObjectExecutionSlots, List.foldl_cons] at ih ⊢
    rw [ih]
    split <;> rfl

@[simp] theorem initializeObjectExecutionSlots_assignMinFreeExecutionSlot :
    (self.initializeObjectExecutionSlots objs).assignMinFreeExecutionSlot = self.assignMinFreeExecutionSlot := by
  induction objs generalizing self with
  | nil => rfl
  | cons obj objs ih =>
    simp only [initializeObjectExecutionSlots, List.foldl_cons] at ih ⊢
    rw [ih]
    split <;> rfl

theorem initializeObjectExecutionSlots_objectExecutionSlots (o : ℕ) :
    (self.initializeObjectExecutionSlots objs).objectExecutionSlots o =
      (self.objectExecutionSlots o).or (if o ∈ objs.map (·.id) then some .new else none) := by
  induction objs generalizing self with
  | nil => simp [initializeObjectExecutionSlots]
  | cons obj objs ih =>
    simp only [initializeObjectExecutionSlots, List.foldl_cons] at ih ⊢
    rw [ih]
    by_cases ho : o = obj.id
    · subst ho
      cases h : self.objectExecutionSlots obj.id <;> simp [h]
    · cases self.objectExecutionSlots obj.id <;> simp [ho]

theorem Wf.initializeObjectExecutionSlots (hwf : self.Wf) : (self.initializeObjectExecutionSlots objs).Wf := by
  intro o slots h
  rw [initializeObjectExecutionSlots_objectExecutionSlots] at h
  rw [initializeObjectExecutionSlots_assignMinFreeExecutionSlot]
  cases hself : self.objectExecutionSlots o with
  | some old =>
    rw [hself, Option.some_or] at h
    exact Option.some_inj.mp h ▸ hwf o old hself
  | none =>
    rw [hself, Option.none_or] at h
    split_ifs at h
    exact Option.some_inj.mp h ▸ SlotsWf.new _

theorem tracks_initializeObjectExecutionSlots : (self.initializeObjectExecutionSlots objs).Tracks objs := by
  intro obj hobj
  rw [initializeObjectExecutionSlots_objectExecutionSlots, if_pos (List.mem_map_of_mem hobj)]
  cases self.objectExecutionSlots obj.id <;> rfl

end Initialize


/-! ### The start time -/

section StartTime

variable {objs : List SharedInputObject} {d : ℕ}

theorem computeMinFreeExecutionSlot_ok :
    ∀ {objs : List SharedInputObject} (d : ℕ) (interval : ExecutionSlot), objs ≠ [] → self.Tracks objs →
      ∃ r, self.computeMinFreeExecutionSlot objs d interval = .ok r
  | [], _, _, hne, _ => absurd rfl hne
  | obj :: rest, d, interval, _, htracks => by
    obtain ⟨slots, hslots⟩ := Option.isSome_iff_exists.mp (htracks obj List.mem_cons_self)
    rw [computeMinFreeExecutionSlot, Iff.mpr expectSlots_eq_ok hslots, except_ok_bind]
    apply findSomeM_except_exists_ok
    intro inter _
    split_ifs with hshort hlast
    · exact ⟨none, rfl⟩
    · exact ⟨_, rfl⟩
    · exact computeMinFreeExecutionSlot_ok d inter (by simpa using hlast)
        fun o ho => htracks o (List.mem_cons_of_mem obj ho)

theorem computeMinFreeExecutionSlot_eq_some :
    ∀ {objs : List SharedInputObject} {d : ℕ} {interval : ExecutionSlot} {s : ℕ},
      self.computeMinFreeExecutionSlot objs d interval = .ok (some s) →
      (ExecutionSlot.new s (s + d)).Within interval ∧ self.Fits objs s d
  | [], _, _, _, h => by simp [computeMinFreeExecutionSlot] at h
  | obj :: rest, d, interval, s, h => by
    rw [computeMinFreeExecutionSlot, except_bind_eq_ok] at h
    obtain ⟨slots, hslots, h⟩ := h
    obtain ⟨inter, hmem, hfound⟩ := findSomeM_except_eq_ok_some h
    obtain ⟨free, hfree, hinter⟩ := List.mem_filterMap.mp hmem
    obtain ⟨hin_free, hin_interval, hinter_ne⟩ := intersection_eq_some hinter
    have hslots' := Iff.mp expectSlots_eq_ok hslots
    split_ifs at hfound with hshort hlast
    · simp at hfound
    · -- the last object: the slot starts where the intersection does
      obtain rfl : inter.startTime = s := by simpa using hfound
      have hwithin : (ExecutionSlot.new inter.startTime (inter.startTime + d)).Within inter := by
        unfold duration at hshort
        unfold Within ExecutionSlot.new
        dsimp only
        omega
      obtain rfl : rest = [] := by simpa using hlast
      refine ⟨hwithin.trans hin_interval, fun o ho => ?_⟩
      obtain rfl := List.mem_singleton.mp ho
      exact ⟨slots, hslots', free, hfree, hwithin.trans hin_free⟩
    · -- the other objects were searched within the intersection
      obtain ⟨hwithin, hfits⟩ := computeMinFreeExecutionSlot_eq_some hfound
      refine ⟨hwithin.trans hin_interval, fun o ho => ?_⟩
      rcases List.mem_cons.mp ho with rfl | ho
      · exact ⟨slots, hslots', free, hfree, hwithin.trans hin_free⟩
      · exact hfits o ho

theorem Wf.maxObjectFreeSlotStartTime (hwf : self.Wf) (hmode : self.assignMinFreeExecutionSlot = false) {o : ℕ}
    (htracked : (self.objectExecutionSlots o).isSome) (d : ℕ) :
    ∃ slots last, self.objectExecutionSlots o = some slots ∧ slots.slots.getLast? = some last ∧
      last.endTime = MAX_EXECUTION_TIME ∧ last.startTime < MAX_EXECUTION_TIME ∧
      slots.maxObjectFreeSlotStartTime d =
        if d ≤ MAX_EXECUTION_TIME - last.startTime then some last.startTime else none := by
  obtain ⟨slots, hslots⟩ := Option.isSome_iff_exists.mp htracked
  obtain ⟨last, hlast, hend⟩ := (hwf o slots hslots).last hmode
  have hne := (hwf o slots hslots).freeList.nonempty last (List.mem_of_getLast? hlast)
  exact ⟨slots, last, hslots, hlast, hend, hend ▸ hne,
    ObjectExecutionSlots.maxObjectFreeSlotStartTime_of_getLast hlast d⟩

/-- The start time an object offers after its last free slot, as the loop of
`compute_tx_start_time` reads it. -/
def offeredStartTime (self : SharedObjectCongestionTracker) (d : ℕ) (obj : SharedInputObject) : Option ℕ :=
  (self.objectExecutionSlots obj.id).bind (·.maxObjectFreeSlotStartTime d)

theorem mapM_offeredStartTime (htracks : self.Tracks objs) :
    objs.mapM (fun obj => do
      let slots ← self.expectSlots obj.id "object should have been inserted at the start of this function."
      pure (slots.maxObjectFreeSlotStartTime d)) = .ok (objs.map (self.offeredStartTime d)) := by
  apply mapM_except_eq_ok_map
  intro obj hobj
  obtain ⟨slots, hslots⟩ := Option.isSome_iff_exists.mp (htracks obj hobj)
  simp only [offeredStartTime, hslots, Iff.mpr expectSlots_eq_ok hslots, except_ok_bind, Option.bind_some]
  rfl

theorem computeTxStartTime_max (hwf : self.Wf) (hmode : self.assignMinFreeExecutionSlot = false)
    (htracks : self.Tracks objs) (hne : objs ≠ []) :
    ∃ r, self.computeTxStartTime objs d = .ok r ∧
      (∀ s, r = some s → s + d ≤ MAX_EXECUTION_TIME ∧ self.Fits objs s d) ∧
      ∃ obj ∈ objs, ∃ slots last, self.objectExecutionSlots obj.id = some slots ∧ slots.slots.getLast? = some last ∧
        (r = none ∧ MAX_EXECUTION_TIME < last.startTime + d ∨ r = some last.startTime) := by
  let g := self.offeredStartTime d
  have hsome : ∀ obj ∈ objs, ∀ t, g obj = some t → ∃ slots last, self.objectExecutionSlots obj.id = some slots ∧
      slots.slots.getLast? = some last ∧ last.endTime = MAX_EXECUTION_TIME ∧ t = last.startTime ∧
      t + d ≤ MAX_EXECUTION_TIME := by
    intro obj hobj t ht
    obtain ⟨slots, last, hslots, hlast, hend, hlt, hoffer⟩ := hwf.maxObjectFreeSlotStartTime hmode (htracks obj hobj) d
    simp only [g, offeredStartTime, hslots, Option.bind_some, hoffer] at ht
    split_ifs at ht with hroom
    obtain rfl := Option.some_inj.mp ht
    exact ⟨slots, last, hslots, hlast, hend, rfl, by omega⟩
  rw [computeTxStartTime, if_neg (by simp [hmode]), mapM_offeredStartTime htracks, except_ok_bind]
  by_cases hall : (objs.map g).all (·.isSome)
  · -- every object offers a start time: the latest one is taken
    have hne' : (objs.map g).filterMap id ≠ [] := by
      obtain ⟨obj, hobj⟩ := List.exists_mem_of_ne_nil objs hne
      obtain ⟨t, ht⟩ := Option.isSome_iff_exists.mp (List.all_eq_true.mp hall _ (List.mem_map_of_mem hobj))
      exact List.ne_nil_of_mem (List.mem_filterMap.mpr ⟨_, List.mem_map_of_mem hobj, ht⟩)
    obtain ⟨s, hs⟩ := Option.isSome_iff_exists.mp (List.isSome_max?_of_ne_nil hne')
    obtain ⟨hsmem, hsmax⟩ := List.max?_eq_some_iff.mp hs
    obtain ⟨_, hx, hobjs⟩ := List.mem_filterMap.mp hsmem
    obtain ⟨obj, hobj, rfl⟩ := List.mem_map.mp hx
    obtain ⟨slots, last, hslots, hlast, -, rfl, hroom⟩ := hsome obj hobj s hobjs
    rw [if_pos hall, hs]
    refine ⟨some last.startTime, rfl, fun s' hs' => ?_, obj, hobj, slots, last, hslots, hlast, .inr rfl⟩
    obtain rfl := Option.some_inj.mp hs'
    refine ⟨hroom, fun o ho => ?_⟩
    -- every other object's last free slot starts no later and runs to the end
    obtain ⟨t, ht⟩ := Option.isSome_iff_exists.mp (List.all_eq_true.mp hall _ (List.mem_map_of_mem ho))
    have hle := hsmax t (List.mem_filterMap.mpr ⟨_, List.mem_map_of_mem ho, ht⟩)
    obtain ⟨slots', last', hslots', hlast', hend', rfl, -⟩ := hsome o ho t ht
    refine ⟨slots', hslots', last', List.mem_of_getLast? hlast', ?_⟩
    unfold Within ExecutionSlot.new
    dsimp only
    omega
  · -- some object has no room after its last free slot
    rw [if_neg hall]
    simp only [List.all_eq_true, not_forall] at hall
    obtain ⟨_, hx, hnone⟩ := hall
    obtain ⟨obj, hobj, rfl⟩ := List.mem_map.mp hx
    obtain ⟨slots, last, hslots, hlast, -, -, hoffer⟩ := hwf.maxObjectFreeSlotStartTime hmode (htracks obj hobj) d
    refine ⟨none, rfl, fun s hs => absurd hs (by simp), obj, hobj, slots, last, hslots, hlast, .inl ⟨rfl, ?_⟩⟩
    simp only [g, offeredStartTime, hslots, Option.bind_some, hoffer] at hnone
    split_ifs at hnone with hroom
    · exact absurd rfl hnone
    · omega


theorem computeTxStartTime_ok (hwf : self.Wf) (htracks : self.Tracks objs) (hne : objs ≠ []) :
    ∃ r, self.computeTxStartTime objs d = .ok r ∧ ∀ s, r = some s → s + d ≤ MAX_EXECUTION_TIME ∧ self.Fits objs s d := by
  cases hmode : self.assignMinFreeExecutionSlot with
  | false =>
    obtain ⟨r, hr, hfits, -⟩ := computeTxStartTime_max hwf hmode htracks hne (d := d)
    exact ⟨r, hr, hfits⟩
  | true =>
    obtain ⟨r, hr⟩ := computeMinFreeExecutionSlot_ok d maxDurationSlot hne htracks
    refine ⟨r, by rw [computeTxStartTime, if_pos hmode, hr], fun s hs => ?_⟩
    subst hs
    obtain ⟨hwithin, hfits⟩ := computeMinFreeExecutionSlot_eq_some hr
    exact ⟨hwithin.2, hfits⟩

/-! ### The deferral -/

theorem congestedObjects_max (hmode : self.assignMinFreeExecutionSlot = false) (htracks : self.Tracks objs)
    {maxExecutionDurationPerCommit : ℕ} {obj : SharedInputObject} (hobj : obj ∈ objs) {slots : ObjectExecutionSlots}
    (hslots : self.objectExecutionSlots obj.id = some slots)
    (hcong : MAX_EXECUTION_TIME < slots.maxObjectOccupiedSlotEndTime + d ∨
      maxExecutionDurationPerCommit < slots.maxObjectOccupiedSlotEndTime + d) :
    ∃ l, self.congestedObjects objs d maxExecutionDurationPerCommit = .ok l ∧ l ≠ [] := by
  -- the test `filterM` makes of a tracked object
  let p : SharedInputObject → Bool := fun obj =>
    (self.objectExecutionSlots obj.id).any fun slots =>
      decide (2 ^ 64 ≤ slots.maxObjectOccupiedSlotEndTime + d) ||
        decide ((slots.maxObjectOccupiedSlotEndTime + d) % 2 ^ 64 > maxExecutionDurationPerCommit)
  have hfilter := filterM_except_eq_ok_filter (g := p) (l := objs) (f := fun obj => do
      let slots ← self.expectSlots obj.id "object should have been inserted before."
      let sum := slots.maxObjectOccupiedSlotEndTime + d
      pure (decide (2 ^ 64 ≤ sum) || decide (sum % 2 ^ 64 > maxExecutionDurationPerCommit))) (by
    intro obj hobj
    obtain ⟨slots, hslots⟩ := Option.isSome_iff_exists.mp (htracks obj hobj)
    simp only [p, hslots, Option.any_some, Iff.mpr expectSlots_eq_ok hslots, except_ok_bind]
    rfl)
  have hp : p obj = true := by
    simp only [p, hslots, Option.any_some, Bool.or_eq_true, decide_eq_true_eq]
    by_cases hov : 2 ^ 64 ≤ slots.maxObjectOccupiedSlotEndTime + d
    · exact .inl hov
    · refine .inr ?_
      rw [Nat.mod_eq_of_lt (by omega)]
      unfold MAX_EXECUTION_TIME at hcong
      omega
  rw [congestedObjects, if_neg (by simp [hmode]), hfilter]
  exact ⟨_, rfl, List.ne_nil_of_mem (List.mem_map_of_mem (List.mem_filter.mpr ⟨hobj, hp⟩))⟩

end StartTime

/-! ### `try_schedule` -/

theorem trySchedule_spec {cert : Certificate} (hwf : self.Wf) (htracks : self.Tracks cert.sharedInputObjects)
    (maxExecutionDurationPerCommit : ℕ) (previouslyDeferredTxDigests : ℕ → Option DeferralKey) (commitRound : ℕ) :
    ∃ r, self.trySchedule cert maxExecutionDurationPerCommit previouslyDeferredTxDigests commitRound = .ok r ∧
      (∀ s, r = .schedule s →
        (cert.sharedInputObjects ≠ [] → s + self.getEstimatedExecutionDuration cert ≤ maxExecutionDurationPerCommit) ∧
        (0 < self.getEstimatedExecutionDuration cert → cert.sharedInputObjects ≠ [] →
          s + self.getEstimatedExecutionDuration cert ≤ MAX_EXECUTION_TIME ∧
          self.Fits cert.sharedInputObjects s (self.getEstimatedExecutionDuration cert))) ∧
      ∀ key l, r = .defer key l → l ≠ [] := by
  unfold trySchedule
  dsimp only
  generalize self.getEstimatedExecutionDuration cert = d
  by_cases hd0 : d = 0
  · rw [if_pos hd0]
    refine ⟨_, rfl, fun s hs => ?_, fun key l h => nomatch h⟩
    cases hs
    exact ⟨fun _ => by omega, fun hd => absurd hd0 (by omega)⟩
  rw [if_neg hd0]
  by_cases hobjs : cert.sharedInputObjects.isEmpty
  · rw [if_pos hobjs]
    refine ⟨_, rfl, fun s hs => ?_, fun key l h => nomatch h⟩
    have hnil := List.isEmpty_iff.mp hobjs
    exact ⟨fun hne => absurd hnil hne, fun _ hne => absurd hnil hne⟩
  rw [if_neg hobjs]
  have hne : cert.sharedInputObjects ≠ [] := by simpa using hobjs
  obtain ⟨r, hr, hfits⟩ := computeTxStartTime_ok hwf htracks hne (d := d)
  rw [hr, except_ok_bind]
  cases hf : r.filter (fun x => decide (x + d ≤ maxExecutionDurationPerCommit)) with
  | some s =>
    obtain ⟨rfl, hle⟩ := Option.filter_eq_some_iff.mp hf
    refine ⟨_, rfl, fun s' hs' => ?_, fun key l h => nomatch h⟩
    cases hs'
    exact ⟨fun _ => by simpa using hle, fun _ _ => hfits s rfl⟩
  | none =>
    -- no start time within the commit: some object is blamed
    obtain ⟨l, hl, hlne⟩ : ∃ l, self.congestedObjects cert.sharedInputObjects d maxExecutionDurationPerCommit = .ok l ∧
        l ≠ [] := by
      cases hmode : self.assignMinFreeExecutionSlot with
      | true => exact ⟨_, by rw [congestedObjects, if_pos hmode]; rfl, by simpa using hne⟩
      | false =>
        obtain ⟨r', hr', -, obj, hobj, slots, last, hslots, hlast, hcase⟩ :=
          computeTxStartTime_max hwf hmode htracks hne (d := d)
        obtain rfl := Except.ok.inj (hr.symm.trans hr')
        refine congestedObjects_max hmode htracks hobj hslots ?_
        rw [ObjectExecutionSlots.maxObjectOccupiedSlotEndTime_of_getLast hlast]
        rcases hcase with ⟨-, hover⟩ | rfl
        · exact .inl hover
        · simp only [Option.filter_some, decide_eq_true_eq, ite_eq_right_iff, reduceCtorEq, imp_false] at hf
          exact .inr (by omega)
    rw [hl, except_ok_bind, if_neg (by simpa using hlne)]
    refine ⟨_, rfl, fun s h => (nomatch h), fun key l' h => ?_⟩
    cases h
    exact hlne

/-! ### `bump_object_execution_slots` -/

section Bump

variable {slot : ExecutionSlot}

/-- The bump's loop after the objects `pre`: they have lost the slot, the
other objects are untouched. -/
structure Bumped (init : SharedObjectCongestionTracker) (slot : ExecutionSlot) (pre : List SharedInputObject)
    (t : SharedObjectCongestionTracker) : Prop where
  mode : t.mode = init.mode
  assign : t.assignMinFreeExecutionSlot = init.assignMinFreeExecutionSlot
  wf : t.Wf
  removed : ∀ o ∈ pre.map (·.id), ∃ old new, init.objectExecutionSlots o = some old ∧
    t.objectExecutionSlots o = some new ∧ ∀ x, Covers new.slots x ↔ Covers old.slots x ∧ ¬slot.Holds x
  untouched : ∀ o ∉ pre.map (·.id), t.objectExecutionSlots o = init.objectExecutionSlots o

theorem Bumped.start (hwf : self.Wf) : Bumped self slot [] self :=
  ⟨rfl, rfl, hwf, fun _ h => absurd h List.not_mem_nil, fun _ _ => rfl⟩

theorem Bumped.step {pre : List SharedInputObject} {t : SharedObjectCongestionTracker} (h : Bumped self slot pre t)
    {a : SharedInputObject} (hfresh : a.id ∉ pre.map (·.id)) {slots : ObjectExecutionSlots} {free : ExecutionSlot}
    (hslots : self.objectExecutionSlots a.id = some slots) (hfree : free ∈ slots.slots) (hwithin : slot.Within free)
    (hslot : slot.startTime < slot.endTime)
    (hlast : self.assignMinFreeExecutionSlot = false → slot.endTime < MAX_EXECUTION_TIME) :
    ∃ new, t.objectExecutionSlots a.id = some slots ∧ slots.remove slot = .ok new ∧
      Bumped self slot (pre ++ [a]) { t with objectExecutionSlots := Function.update t.objectExecutionSlots a.id (some new) } := by
  have ht : t.objectExecutionSlots a.id = some slots := (h.untouched a.id hfresh).trans hslots
  have hswf := h.wf a.id slots ht
  obtain ⟨new, hremove, hfl, hcov, hlastpres⟩ := hswf.freeList.remove_spec hslot hfree hwithin
  refine ⟨new, ht, hremove, h.mode, h.assign, fun o sl hsl => ?_, fun o ho => ?_, fun o ho => ?_⟩
  · -- the new free list keeps its last slot in the mode that needs it
    by_cases hoa : o = a.id
    · subst hoa
      simp only [Function.update_self, Option.some.injEq] at hsl
      subst hsl
      refine ⟨hfl, fun hmode => ?_⟩
      obtain ⟨last, hl, he⟩ := hswf.last hmode
      exact hlastpres _ (he ▸ hlast (h.assign ▸ hmode)) fun last' hl' => Option.some_inj.mp (hl.symm.trans hl') ▸ he
    · simp only [Function.update_of_ne hoa] at hsl
      exact h.wf o sl hsl
  · by_cases hoa : o = a.id
    · subst hoa
      exact ⟨slots, new, hslots, by simp, hcov⟩
    · obtain ⟨old, new', hold, hnew', hcov'⟩ := h.removed o (by simpa [hoa] using ho)
      exact ⟨old, new', hold, by simpa [Function.update_of_ne hoa] using hnew', hcov'⟩
  · have hoa : o ≠ a.id := fun hoa => ho (by simp [hoa])
    simpa [Function.update_of_ne hoa] using h.untouched o fun hpre => ho (by simp [hpre])

theorem bumpObjectExecutionSlots_of_zero {cert : Certificate} (h : self.getEstimatedExecutionDuration cert = 0)
    (s : ℕ) : self.bumpObjectExecutionSlots cert s = .ok self := by
  unfold bumpObjectExecutionSlots
  dsimp only
  rw [if_pos h]
  rfl

theorem bumpObjectExecutionSlots_spec {cert : Certificate} {s : ℕ} (hwf : self.Wf)
    (hnodup : (cert.sharedInputObjects.map (·.id)).Nodup)
    (hfits : self.Fits cert.sharedInputObjects s (self.getEstimatedExecutionDuration cert))
    (hd : 0 < self.getEstimatedExecutionDuration cert)
    (hend : s + self.getEstimatedExecutionDuration cert ≤ MAX_EXECUTION_TIME)
    (hlast : self.assignMinFreeExecutionSlot = false →
      s + self.getEstimatedExecutionDuration cert < MAX_EXECUTION_TIME) :
    ∃ t, self.bumpObjectExecutionSlots cert s = .ok t ∧
      Bumped self (ExecutionSlot.new s (s + self.getEstimatedExecutionDuration cert))
        (cert.sharedInputObjects.filter (·.mutable)) t := by
  unfold bumpObjectExecutionSlots
  dsimp only
  generalize self.getEstimatedExecutionDuration cert = d at *
  rw [if_neg (by omega), Nat.min_eq_left hend]
  have hslot : (ExecutionSlot.new s (s + d)).startTime < (ExecutionSlot.new s (s + d)).endTime := by
    simp only [ExecutionSlot.new]
    omega
  have hLnodup := ((List.filter_sublist (p := (·.mutable)) (l := cert.sharedInputObjects)).map (·.id)).nodup hnodup
  apply foldlM_except_exists_ok_at (List.nil_append _) (Bumped.start hwf)
  intro t a pre post hsplit hbumped
  -- the object was not handled before, and its free slots hold the slot
  have hfresh : a.id ∉ pre.map (·.id) := by
    rw [← hsplit, List.map_append, List.map_cons] at hLnodup
    exact fun hmem => (List.nodup_append.mp hLnodup).2.2 _ hmem _ List.mem_cons_self rfl
  have ha : a ∈ cert.sharedInputObjects :=
    (List.mem_filter.mp (hsplit ▸ List.mem_append_right pre List.mem_cons_self)).1
  obtain ⟨slots, hslots, free, hfree, hwithin⟩ := hfits a ha
  obtain ⟨new, ht, hremove, hnext⟩ := hbumped.step hfresh hslots hfree hwithin hslot hlast
  refine ⟨_, ?_, hnext⟩
  simp only [Iff.mpr expectSlots_eq_ok ht, except_ok_bind, hremove]
  rfl

end Bump

end SharedObjectCongestionTracker

end Iota.Core.Congestion
