import Mathlib
import Iota.Core.CongestionSchedule
import Iota.Lib.LeastSearch

/-! The start times `compute_tx_start_time` picks are the extreme ones.  The search for the
lowest free slot tries the free slots of the first object in ascending order, each cut to
the lookup interval, and searches each cut for the remaining objects; since the free slots
of an object come one after another, the first cut that answers holds the least start
time of all.  Scheduling after the last free slots takes the latest of their starts. -/

namespace Iota.Core.Congestion

open Iota.Lib ExecutionSlot

namespace SharedObjectCongestionTracker

variable {self : SharedObjectCongestionTracker} {d : ℕ}

/-- The start times in `interval` at which a slot of duration `d` is free on every object. -/
def FreeStarts (self : SharedObjectCongestionTracker) (objs : List SharedInputObject) (interval : ExecutionSlot)
    (d : ℕ) : Set ℕ :=
  {s | (ExecutionSlot.new s (s + d)).Within interval ∧ self.Fits objs s d}

theorem fits_cons {obj : SharedInputObject} {rest : List SharedInputObject} {slots : ObjectExecutionSlots}
    (hslots : self.objectExecutionSlots obj.id = some slots) {s : ℕ} :
    self.Fits (obj :: rest) s d ↔
      (∃ free ∈ slots.slots, (ExecutionSlot.new s (s + d)).Within free) ∧ self.Fits rest s d := by
  simp [Fits, hslots]

theorem freeStarts_eq_empty {rest : List SharedInputObject} {inter : ExecutionSlot} (hshort : inter.duration < d) :
    self.FreeStarts rest inter d = ∅ := by
  ext s
  simp only [FreeStarts, Within, ExecutionSlot.new, Set.mem_ofPred_eq, Set.mem_empty_iff_false, iff_false]
  unfold duration at hshort
  omega

theorem isLeast_freeStarts_nil (hd : 0 < d) {inter : ExecutionSlot} (hlong : ¬ inter.duration < d) :
    IsLeast (self.FreeStarts [] inter d) inter.startTime := by
  unfold duration at hlong
  refine ⟨⟨?_, fun _ h => absurd h List.not_mem_nil⟩, fun s hs => hs.1.1⟩
  unfold Within ExecutionSlot.new
  dsimp only
  omega

theorem freeStarts_cons {obj : SharedInputObject} {rest : List SharedInputObject} {slots : ObjectExecutionSlots}
    (hslots : self.objectExecutionSlots obj.id = some slots) (hd : 0 < d) (interval : ExecutionSlot) :
    self.FreeStarts (obj :: rest) interval d =
      {s | ∃ inter ∈ slots.slots.filterMap (·.intersection interval), s ∈ self.FreeStarts rest inter d} := by
  ext s
  simp only [FreeStarts, Set.mem_ofPred_eq, fits_cons hslots, List.mem_filterMap]
  constructor
  · rintro ⟨hinterval, ⟨free, hfree, hwithin⟩, hrest⟩
    obtain ⟨inter, hinter, hin⟩ := within_intersection (by unfold ExecutionSlot.new; dsimp only; omega) hwithin hinterval
    exact ⟨inter, ⟨free, hfree, hinter⟩, hin, hrest⟩
  · rintro ⟨inter, ⟨free, hfree, hinter⟩, hin, hrest⟩
    obtain ⟨hin_free, hin_interval, -⟩ := intersection_eq_some hinter
    exact ⟨hin.trans hin_interval, ⟨free, hfree, hin.trans hin_free⟩, hrest⟩

theorem pairwise_freeStarts {slots : List ExecutionSlot} (hsorted : slots.Pairwise fun a b => a.endTime ≤ b.startTime)
    (rest : List SharedInputObject) (interval : ExecutionSlot) :
    (slots.filterMap (·.intersection interval)).Pairwise
      (fun inter inter' => ∀ x ∈ self.FreeStarts rest inter d, ∀ y ∈ self.FreeStarts rest inter' d, x ≤ y) := by
  rw [List.pairwise_filterMap]
  refine hsorted.imp fun {free free'} hle inter hinter inter' hinter' x hx y hy => ?_
  obtain ⟨hin_free, -, -⟩ := intersection_eq_some (Option.mem_def.mp hinter)
  obtain ⟨hin_free', -, -⟩ := intersection_eq_some (Option.mem_def.mp hinter')
  have hx := hx.1
  have hy := hy.1
  unfold Within ExecutionSlot.new at *
  dsimp only at *
  omega

theorem computeMinFreeExecutionSlot_answersLeast (hwf : self.Wf) (hd : 0 < d) :
    ∀ {objs : List SharedInputObject} (interval : ExecutionSlot), objs ≠ [] → self.Tracks objs →
      ∃ r, self.computeMinFreeExecutionSlot objs d interval = .ok r ∧ AnswersLeast r (self.FreeStarts objs interval d)
  | [], _, hne, _ => absurd rfl hne
  | obj :: rest, interval, _, htracks => by
    obtain ⟨slots, hslots⟩ := Option.isSome_iff_exists.mp (htracks obj List.mem_cons_self)
    rw [computeMinFreeExecutionSlot, expectSlots_eq_ok.mpr hslots, except_ok_bind, freeStarts_cons hslots hd]
    apply findSomeM_answersLeast _ (pairwise_freeStarts (hwf _ _ hslots).freeList.sorted rest interval)
    intro inter _
    split_ifs with hshort hlast
    · exact ⟨none, rfl, answersLeast_none_iff.mpr (freeStarts_eq_empty hshort)⟩
    · obtain rfl : rest = [] := by simpa using hlast
      exact ⟨_, rfl, answersLeast_some_iff.mpr (isLeast_freeStarts_nil hd hshort)⟩
    · exact computeMinFreeExecutionSlot_answersLeast hwf hd inter (by simpa using hlast)
        fun o ho => htracks o (List.mem_cons_of_mem obj ho)

theorem computeTxStartTime_isGreatest (hmode : self.assignMinFreeExecutionSlot = false) {objs : List SharedInputObject}
    (htracks : self.Tracks objs) (hne : objs ≠ [])
    (hroom : ∀ obj ∈ objs, ∃ slots last, self.objectExecutionSlots obj.id = some slots ∧
      slots.slots.getLast? = some last ∧ d ≤ MAX_EXECUTION_TIME - last.startTime) :
    ∃ s, self.computeTxStartTime objs d = .ok (some s) ∧
      IsGreatest {t | ∃ obj ∈ objs, ∃ slots last, self.objectExecutionSlots obj.id = some slots ∧
        slots.slots.getLast? = some last ∧ t = last.startTime} s := by
  -- every object offers the start of its last free slot
  have hsome : ∀ obj ∈ objs, ∃ slots last, self.objectExecutionSlots obj.id = some slots ∧
      slots.slots.getLast? = some last ∧ self.offeredStartTime d obj = some last.startTime := by
    intro obj hobj
    obtain ⟨slots, last, hslots, hlast, hfit⟩ := hroom obj hobj
    refine ⟨slots, last, hslots, hlast, ?_⟩
    rw [offeredStartTime, hslots, Option.bind_some, ObjectExecutionSlots.maxObjectFreeSlotStartTime_of_getLast hlast,
      if_pos hfit]
  have hoffer : ∀ t, (∃ obj ∈ objs, self.offeredStartTime d obj = some t) ↔
      ∃ obj ∈ objs, ∃ slots last, self.objectExecutionSlots obj.id = some slots ∧
        slots.slots.getLast? = some last ∧ t = last.startTime := by
    intro t
    refine exists_congr fun obj => and_congr_right fun hobj => ?_
    obtain ⟨slots, last, hslots, hlast, hg⟩ := hsome obj hobj
    rw [hg, Option.some_inj, hslots]
    constructor
    · rintro rfl
      exact ⟨slots, last, rfl, hlast, rfl⟩
    · rintro ⟨slots', last', hslots', hlast', rfl⟩
      obtain rfl := Option.some_inj.mp hslots'
      rw [hlast, Option.some_inj] at hlast'
      rw [hlast']
  have hmem : ∀ t, t ∈ (objs.map (self.offeredStartTime d)).filterMap id ↔
      ∃ obj ∈ objs, self.offeredStartTime d obj = some t := by
    simp
  have hall : (objs.map (self.offeredStartTime d)).all (·.isSome) := by
    rw [List.all_eq_true]
    intro x hx
    obtain ⟨obj, hobj, rfl⟩ := List.mem_map.mp hx
    obtain ⟨-, last, -, -, hg⟩ := hsome obj hobj
    rw [hg]
    rfl
  -- the `max()` of the offers, which is there since some object offers
  obtain ⟨obj, hobj⟩ := List.exists_mem_of_ne_nil objs hne
  obtain ⟨-, last, -, -, hg⟩ := hsome obj hobj
  obtain ⟨s, hs⟩ := Option.isSome_iff_exists.mp
    (List.isSome_max?_of_mem ((hmem _).mpr ⟨obj, hobj, hg⟩))
  obtain ⟨hsmem, hsmax⟩ := List.max?_eq_some_iff.mp hs
  rw [computeTxStartTime, if_neg (by simp [hmode]), mapM_offeredStartTime htracks, except_ok_bind, if_pos hall, hs]
  exact ⟨s, rfl, (hoffer s).mp ((hmem s).mp hsmem), fun t ht => hsmax t ((hmem t).mpr ((hoffer t).mpr ht))⟩

/-- With every object tracked and kept as a free list, the lowest free slot search over the
whole time range answers with the least start time at which the duration is free on every
object, and with nothing when there is none; after the last free slots, when each has room,
the start time is the latest of their starts. -/
theorem computeTxStartTime_extreme (hwf : self.Wf) {objs : List SharedInputObject} (htracks : self.Tracks objs)
    (hne : objs ≠ []) (hd : 0 < d) :
    (∃ r, self.computeMinFreeExecutionSlot objs d maxDurationSlot = .ok r ∧
      (∀ s, r = some s ↔ IsLeast (self.FreeStarts objs maxDurationSlot d) s) ∧
      (r = none ↔ self.FreeStarts objs maxDurationSlot d = ∅)) ∧
    (self.assignMinFreeExecutionSlot = false →
      (∀ obj ∈ objs, ∃ slots last, self.objectExecutionSlots obj.id = some slots ∧
        slots.slots.getLast? = some last ∧ d ≤ MAX_EXECUTION_TIME - last.startTime) →
      ∃ s, self.computeTxStartTime objs d = .ok (some s) ∧
        IsGreatest {t | ∃ obj ∈ objs, ∃ slots last, self.objectExecutionSlots obj.id = some slots ∧
          slots.slots.getLast? = some last ∧ t = last.startTime} s) := by
  obtain ⟨r, hr, hanswer⟩ := computeMinFreeExecutionSlot_answersLeast hwf hd maxDurationSlot hne htracks
  exact ⟨⟨r, hr, hanswer, hanswer.eq_none_iff⟩, fun hmode hroom => computeTxStartTime_isGreatest hmode htracks hne hroom⟩

/-- Two objects with fragmented free slots: the search backtracks out of the first free
slot of object 1, where object 2 leaves too little room, to start at 20. -/
def fragmentedTracker : SharedObjectCongestionTracker where
  objectExecutionSlots o :=
    if o = 1 then some ⟨[⟨0, 5⟩, ⟨10, MAX_EXECUTION_TIME⟩]⟩
    else if o = 2 then some ⟨[⟨3, 12⟩, ⟨20, MAX_EXECUTION_TIME⟩]⟩
    else none
  mode := .totalTxCount
  assignMinFreeExecutionSlot := false

def fragmentedObjects : List SharedInputObject := [⟨1, 1, true⟩, ⟨2, 1, true⟩]

example : fragmentedTracker.computeMinFreeExecutionSlot fragmentedObjects 3 maxDurationSlot = .ok (some 20) := rfl

example : fragmentedTracker.computeMinFreeExecutionSlot fragmentedObjects 2 maxDurationSlot = .ok (some 3) := rfl

theorem fragmentedTracker_wf : fragmentedTracker.Wf := by
  intro o slots h
  simp only [fragmentedTracker] at h
  split_ifs at h
  · obtain rfl := Option.some_inj.mp h
    exact ⟨⟨by decide, by decide⟩, fun _ => ⟨_, rfl, rfl⟩⟩
  · obtain rfl := Option.some_inj.mp h
    exact ⟨⟨by decide, by decide⟩, fun _ => ⟨_, rfl, rfl⟩⟩

theorem computeTxStartTime_extreme_fragmented :
    fragmentedTracker.Wf ∧ fragmentedTracker.Tracks fragmentedObjects ∧ fragmentedObjects ≠ [] ∧ 0 < 3 ∧
    (∃ r, fragmentedTracker.computeMinFreeExecutionSlot fragmentedObjects 3 maxDurationSlot = .ok r ∧
      (∀ s, r = some s ↔ IsLeast (fragmentedTracker.FreeStarts fragmentedObjects maxDurationSlot 3) s) ∧
      (r = none ↔ fragmentedTracker.FreeStarts fragmentedObjects maxDurationSlot 3 = ∅)) ∧
    (fragmentedTracker.assignMinFreeExecutionSlot = false →
      (∀ obj ∈ fragmentedObjects, ∃ slots last, fragmentedTracker.objectExecutionSlots obj.id = some slots ∧
        slots.slots.getLast? = some last ∧ 3 ≤ MAX_EXECUTION_TIME - last.startTime) →
      ∃ s, fragmentedTracker.computeTxStartTime fragmentedObjects 3 = .ok (some s) ∧
        IsGreatest {t | ∃ obj ∈ fragmentedObjects, ∃ slots last, fragmentedTracker.objectExecutionSlots obj.id = some slots ∧
          slots.slots.getLast? = some last ∧ t = last.startTime} s) := by
  have htracks : fragmentedTracker.Tracks fragmentedObjects := by
    intro obj hobj
    simp only [fragmentedObjects, List.mem_cons, List.not_mem_nil, or_false] at hobj
    rcases hobj with rfl | rfl <;> rfl
  exact ⟨fragmentedTracker_wf, htracks, by simp [fragmentedObjects], by decide,
    computeTxStartTime_extreme fragmentedTracker_wf htracks (by simp [fragmentedObjects]) (by decide)⟩

end SharedObjectCongestionTracker

end Iota.Core.Congestion
