import Iota.Core.CongestionSchedule

/-! The certificates of one commit handled one after another. In every state
the free slots of an object are the times below `MAX_EXECUTION_TIME` that no
scheduled certificate writing the object occupies, every scheduled certificate
with shared objects ends within the commit, and a scheduled certificate
overlaps no earlier one writing one of its objects. From such a state the next
certificate is handled without failure, and a deferral blames some object. -/

namespace Iota.Core.Congestion

open Iota.Lib ExecutionSlot SharedObjectCongestionTracker

theorem SharedObjectCongestionTracker.getEstimatedExecutionDuration_congr {t t' : SharedObjectCongestionTracker}
    (h : t'.mode = t.mode) : t'.getEstimatedExecutionDuration = t.getEstimatedExecutionDuration := by
  funext cert
  simp only [getEstimatedExecutionDuration, h]

theorem Certificate.containsSharedObject_eq (cert : Certificate) :
    cert.containsSharedObject = !cert.sharedInputObjects.isEmpty := rfl

namespace Commit

/-- The times the certificate scheduled at `p.2` runs, for the duration the
commit's tracker gives it. -/
def Occupies (c : Commit) (p : Certificate × ℕ) (x : ℕ) : Prop :=
  p.2 ≤ x ∧ x < p.2 + c.tracker.getEstimatedExecutionDuration p.1

theorem occupies_congr {c c' : Commit} (h : c'.tracker.mode = c.tracker.mode) : c'.Occupies = c.Occupies := by
  funext p x
  simp only [Occupies, getEstimatedExecutionDuration_congr h]

/-- What every state of a commit keeps. -/
structure Inv (maxExecutionDurationPerCommit : ℕ) (c : Commit) : Prop where
  /-- Every free list is sorted, its slots non-empty, each ending before the next starts. -/
  wf : c.tracker.Wf
  /-- The free times of an object are those below `MAX_EXECUTION_TIME` that no
  scheduled certificate writing it occupies. -/
  covers : ∀ o slots, c.tracker.objectExecutionSlots o = some slots → ∀ x,
    Covers slots.slots x ↔ x < MAX_EXECUTION_TIME ∧ ∀ p ∈ c.scheduled, p.1.Writes o → ¬c.Occupies p x
  untracked : ∀ o, c.tracker.objectExecutionSlots o = none → ∀ p ∈ c.scheduled, ¬p.1.Uses o
  /-- A scheduled certificate with shared objects ends within the commit. -/
  withinCommit : ∀ p ∈ c.scheduled, p.1.sharedInputObjects ≠ [] →
    p.2 + c.tracker.getEstimatedExecutionDuration p.1 ≤ maxExecutionDurationPerCommit
  /-- A scheduled certificate overlaps no earlier one writing one of its objects. -/
  disjoint : c.scheduled.Pairwise fun p q => ∀ o, p.1.Writes o → q.1.Uses o → ∀ x, c.Occupies p x → ¬c.Occupies q x

variable {maxExecutionDurationPerCommit : ℕ}

theorem Inv.new (mode : PerObjectCongestionControlMode) (assignMinFreeExecutionSlot : Bool) :
    (Commit.new mode assignMinFreeExecutionSlot).Inv maxExecutionDurationPerCommit where
  wf := fun _ _ h => nomatch h
  covers := fun _ _ h => nomatch h
  untracked := fun _ _ _ h => nomatch h
  withinCommit := fun _ h => nomatch h
  disjoint := .nil

variable {c : Commit}

theorem Inv.initializeObjectExecutionSlots (hinv : c.Inv maxExecutionDurationPerCommit) (objs : List SharedInputObject) :
    Inv maxExecutionDurationPerCommit ⟨c.tracker.initializeObjectExecutionSlots objs, c.scheduled⟩ := by
  have hmode : (c.tracker.initializeObjectExecutionSlots objs).mode = c.tracker.mode :=
    initializeObjectExecutionSlots_mode objs
  have hocc : Commit.Occupies ⟨c.tracker.initializeObjectExecutionSlots objs, c.scheduled⟩ = c.Occupies :=
    occupies_congr hmode
  have hdur := getEstimatedExecutionDuration_congr hmode
  refine ⟨hinv.wf.initializeObjectExecutionSlots objs, fun o slots h x => ?_, fun o h => ?_, ?_, ?_⟩
  · rw [initializeObjectExecutionSlots_objectExecutionSlots] at h
    dsimp only
    rw [hocc]
    cases hself : c.tracker.objectExecutionSlots o with
    | some old =>
      rw [hself, Option.some_or, Option.some_inj] at h
      subst h
      exact hinv.covers o _ hself x
    | none =>
      rw [hself, Option.none_or] at h
      split_ifs at h
      obtain rfl := Option.some_inj.mp h
      rw [covers_new]
      -- a new object is written by no scheduled certificate
      exact ⟨fun hx => ⟨hx, fun p hp hw => absurd hw.uses (hinv.untracked o hself p hp)⟩, And.left⟩
  · rw [initializeObjectExecutionSlots_objectExecutionSlots, Option.or_eq_none_iff] at h
    exact hinv.untracked o h.1
  · dsimp only
    rw [hdur]
    exact hinv.withinCommit
  · dsimp only
    rw [hocc]
    exact hinv.disjoint

theorem Inv.scheduleIdle (hinv : c.Inv maxExecutionDurationPerCommit) {cert : Certificate} {s : ℕ}
    (htracks : c.tracker.Tracks cert.sharedInputObjects)
    (hidle : cert.sharedInputObjects = [] ∨ c.tracker.getEstimatedExecutionDuration cert = 0)
    (hwithin : cert.sharedInputObjects ≠ [] →
      s + c.tracker.getEstimatedExecutionDuration cert ≤ maxExecutionDurationPerCommit) :
    Inv maxExecutionDurationPerCommit ⟨c.tracker, c.scheduled ++ [(cert, s)]⟩ := by
  have hnew : ∀ o, cert.Uses o → ∀ x, ¬c.Occupies (cert, s) x := by
    intro o hu x hx
    rcases hidle with hnil | hzero
    · rw [Certificate.Uses, hnil] at hu
      exact List.not_mem_nil hu
    · unfold Occupies at hx
      dsimp only at hx
      omega
  refine ⟨hinv.wf, fun o slots h x => ?_, fun o h p hp => ?_, fun p hp => ?_, ?_⟩
  · rw [hinv.covers o slots h x, List.forall_mem_append, List.forall_mem_singleton]
    exact and_congr_right fun _ => (and_iff_left fun hw => hnew o hw.uses x).symm
  · rcases List.mem_append.mp hp with hp | hp
    · exact hinv.untracked o h p hp
    · obtain rfl := List.mem_singleton.mp hp
      exact fun hu => absurd (htracks.uses hu) (by rw [show c.tracker.objectExecutionSlots o = none from h]; decide)
  · rcases List.mem_append.mp hp with hp | hp
    · exact hinv.withinCommit p hp
    · obtain rfl := List.mem_singleton.mp hp
      exact hwithin
  · refine List.pairwise_append.mpr ⟨hinv.disjoint, List.pairwise_singleton _ _, fun p _ q hq => ?_⟩
    obtain rfl := List.mem_singleton.mp hq
    exact fun o _ hu x _ => hnew o hu x

theorem Inv.scheduleBump (hinv : c.Inv maxExecutionDurationPerCommit) {cert : Certificate} {s : ℕ}
    (htracks : c.tracker.Tracks cert.sharedInputObjects)
    (hfits : c.tracker.Fits cert.sharedInputObjects s (c.tracker.getEstimatedExecutionDuration cert))
    (hwithin : s + c.tracker.getEstimatedExecutionDuration cert ≤ maxExecutionDurationPerCommit)
    {t : SharedObjectCongestionTracker}
    (hb : Bumped c.tracker (ExecutionSlot.new s (s + c.tracker.getEstimatedExecutionDuration cert))
      (cert.sharedInputObjects.filter (·.mutable)) t) :
    Inv maxExecutionDurationPerCommit ⟨t, c.scheduled ++ [(cert, s)]⟩ := by
  have hocc : Commit.Occupies ⟨t, c.scheduled ++ [(cert, s)]⟩ = c.Occupies := occupies_congr hb.mode
  refine ⟨hb.wf, fun o slots h x => ?_, fun o h p hp => ?_, fun p hp => ?_, ?_⟩
  · rw [hocc, List.forall_mem_append, List.forall_mem_singleton]
    by_cases hw : cert.Writes o
    · -- a written object has lost the certificate's slot
      obtain ⟨old, new, hold, hnew, hcov⟩ := hb.removed o (Certificate.writes_iff_mem.mp hw)
      obtain rfl := Option.some_inj.mp (hnew.symm.trans h)
      rw [hcov x, hinv.covers o old hold x]
      constructor
      · rintro ⟨⟨hx, hearlier⟩, hfree⟩
        exact ⟨hx, hearlier, fun _ => hfree⟩
      · rintro ⟨hx, hearlier, hfree⟩
        exact ⟨⟨hx, hearlier⟩, hfree hw⟩
    · have hold := (hb.untouched o fun hmem => hw (Certificate.writes_iff_mem.mpr hmem)).symm.trans h
      rw [hinv.covers o slots hold x]
      exact and_congr_right fun _ => (and_iff_left fun hw' => absurd hw' hw).symm
  · have hw : ¬cert.Writes o := fun hw => by
      obtain ⟨old, new, -, hnew, -⟩ := hb.removed o (Certificate.writes_iff_mem.mp hw)
      rw [show t.objectExecutionSlots o = none from h] at hnew
      cases hnew
    have hold := (hb.untouched o fun hmem => hw (Certificate.writes_iff_mem.mpr hmem)).symm.trans h
    rcases List.mem_append.mp hp with hp | hp
    · exact hinv.untracked o hold p hp
    · obtain rfl := List.mem_singleton.mp hp
      exact fun hu => absurd (htracks.uses hu) (by rw [hold]; decide)
  · rw [getEstimatedExecutionDuration_congr hb.mode]
    rcases List.mem_append.mp hp with hp | hp
    · exact hinv.withinCommit p hp
    · obtain rfl := List.mem_singleton.mp hp
      exact fun _ => hwithin
  · rw [hocc]
    refine List.pairwise_append.mpr ⟨hinv.disjoint, List.pairwise_singleton _ _, fun p hp q hq => ?_⟩
    obtain rfl := List.mem_singleton.mp hq
    -- the certificate's slot was free on every object it uses
    intro o hw hu x hp' hx
    obtain ⟨obj, hobj, rfl⟩ := List.mem_map.mp hu
    obtain ⟨slots, hslots, free, hfree, hin⟩ := hfits obj hobj
    have hcov : Covers slots.slots x := ⟨free, hfree, hin.holds hx⟩
    exact ((hinv.covers _ slots hslots x).mp hcov).2 p hp hw hp'

theorem Inv.handleCertificate (hinv : c.Inv maxExecutionDurationPerCommit)
    (hmax : c.tracker.assignMinFreeExecutionSlot = false → maxExecutionDurationPerCommit < MAX_EXECUTION_TIME)
    {cert : Certificate} (hnodup : (cert.sharedInputObjects.map (·.id)).Nodup)
    (previouslyDeferredTxDigests : ℕ → Option DeferralKey) (commitRound : ℕ) :
    ∃ c' r, c.handleCertificate maxExecutionDurationPerCommit previouslyDeferredTxDigests commitRound cert =
        .ok (c', r) ∧ c'.Inv maxExecutionDurationPerCommit ∧ c'.tracker.mode = c.tracker.mode ∧
      c'.tracker.assignMinFreeExecutionSlot = c.tracker.assignMinFreeExecutionSlot ∧
      ∀ key l, r = .defer key l → l ≠ [] := by
  have hinit := hinv.initializeObjectExecutionSlots cert.sharedInputObjects
  -- the tracker once the certificate's objects are initialized
  have hwf : (c.tracker.initializeObjectExecutionSlots cert.sharedInputObjects).Wf := hinit.wf
  have htracks : (c.tracker.initializeObjectExecutionSlots cert.sharedInputObjects).Tracks cert.sharedInputObjects :=
    tracks_initializeObjectExecutionSlots _
  have hmode : (c.tracker.initializeObjectExecutionSlots cert.sharedInputObjects).mode = c.tracker.mode :=
    initializeObjectExecutionSlots_mode _
  have hassign : (c.tracker.initializeObjectExecutionSlots cert.sharedInputObjects).assignMinFreeExecutionSlot =
      c.tracker.assignMinFreeExecutionSlot :=
    initializeObjectExecutionSlots_assignMinFreeExecutionSlot _
  obtain ⟨r, hr, hsched, hdefer⟩ :=
    trySchedule_spec hwf htracks maxExecutionDurationPerCommit previouslyDeferredTxDigests commitRound
  unfold Commit.handleCertificate
  dsimp only
  rw [hr, except_ok_bind]
  cases r with
  | defer key l => exact ⟨_, _, rfl, hinit, hmode, hassign, hdefer⟩
  | schedule s =>
    obtain ⟨hwithin, hfits⟩ := hsched s rfl
    dsimp only
    by_cases hidle : cert.sharedInputObjects = [] ∨
        (c.tracker.initializeObjectExecutionSlots cert.sharedInputObjects).getEstimatedExecutionDuration cert = 0
    · -- nothing to bump, or a bump of no time
      refine ⟨⟨c.tracker.initializeObjectExecutionSlots cert.sharedInputObjects, c.scheduled ++ [(cert, s)]⟩,
        .schedule s, ?_, hinit.scheduleIdle htracks hidle hwithin, hmode, hassign, fun _ _ h => nomatch h⟩
      split
      · rcases hidle with hnil | hzero
        · exact absurd ‹cert.containsSharedObject = true› (by simp [Certificate.containsSharedObject_eq, hnil])
        · rw [bumpObjectExecutionSlots_of_zero hzero]
          rfl
      · rfl
    · rw [not_or] at hidle
      obtain ⟨hne, hpos⟩ := hidle
      obtain ⟨hend, hfit⟩ := hfits (Nat.pos_of_ne_zero hpos) hne
      have hlast : (c.tracker.initializeObjectExecutionSlots cert.sharedInputObjects).assignMinFreeExecutionSlot = false →
          s + (c.tracker.initializeObjectExecutionSlots cert.sharedInputObjects).getEstimatedExecutionDuration cert <
            MAX_EXECUTION_TIME := fun hm =>
        Nat.lt_of_le_of_lt (hwithin hne) (hmax (hassign ▸ hm))
      obtain ⟨t, hbump, hb⟩ := bumpObjectExecutionSlots_spec hwf hnodup hfit (Nat.pos_of_ne_zero hpos) hend hlast
      rw [if_pos (by simpa [Certificate.containsSharedObject_eq] using hne), hbump, except_ok_bind]
      exact ⟨_, _, rfl, hinit.scheduleBump htracks hfit (hwithin hne) hb, hb.mode.trans hmode,
        hb.assign.trans hassign, fun _ _ h => nomatch h⟩

theorem Inv.handleCertificates (hinv : c.Inv maxExecutionDurationPerCommit)
    (hmax : c.tracker.assignMinFreeExecutionSlot = false → maxExecutionDurationPerCommit < MAX_EXECUTION_TIME)
    {certs : List Certificate} (hcerts : ∀ cert ∈ certs, (cert.sharedInputObjects.map (·.id)).Nodup)
    (previouslyDeferredTxDigests : ℕ → Option DeferralKey) (commitRound : ℕ) :
    ∃ c', c.handleCertificates maxExecutionDurationPerCommit previouslyDeferredTxDigests commitRound certs = .ok c' ∧
      c'.Inv maxExecutionDurationPerCommit ∧
      c'.tracker.assignMinFreeExecutionSlot = c.tracker.assignMinFreeExecutionSlot := by
  obtain ⟨c', hc', hinv', hassign'⟩ := foldlM_except_exists_ok_at
    (f := fun c cert => Prod.fst <$> c.handleCertificate maxExecutionDurationPerCommit previouslyDeferredTxDigests
      commitRound cert)
    (P := fun _ (c' : Commit) => c'.Inv maxExecutionDurationPerCommit ∧
      c'.tracker.assignMinFreeExecutionSlot = c.tracker.assignMinFreeExecutionSlot)
    (List.nil_append certs) ⟨hinv, rfl⟩ (by
      rintro c₁ cert pre post hsplit ⟨hinv₁, hassign₁⟩
      have hcert : cert ∈ certs := hsplit ▸ List.mem_append_right pre List.mem_cons_self
      obtain ⟨c₂, r, h, hinv₂, -, hassign₂, -⟩ :=
        hinv₁.handleCertificate (hassign₁ ▸ hmax) (hcerts cert hcert) previouslyDeferredTxDigests commitRound
      exact ⟨c₂, by rw [h]; rfl, hinv₂, hassign₂.trans hassign₁⟩)
  exact ⟨c', hc', hinv', hassign'⟩

/-- A commit handled from its start, in either mode and for any per-object
mode and commit budget, the budget below `MAX_EXECUTION_TIME` when the tracker
schedules after the objects' last free slots, over certificates whose input
objects are distinct: nothing fails, the state reached keeps the invariant,
and handling one more such certificate succeeds, a deferral blaming some object. -/
theorem handleCertificates_sound (mode : PerObjectCongestionControlMode) (assignMinFreeExecutionSlot : Bool)
    (maxExecutionDurationPerCommit : ℕ) (previouslyDeferredTxDigests : ℕ → Option DeferralKey) (commitRound : ℕ)
    (certs : List Certificate)
    (hmax : assignMinFreeExecutionSlot = false → maxExecutionDurationPerCommit < MAX_EXECUTION_TIME)
    (hcerts : ∀ cert ∈ certs, ∃ objects, cert.transaction.data.inputObjects = .ok objects) :
    ∃ c, (Commit.new mode assignMinFreeExecutionSlot).handleCertificates maxExecutionDurationPerCommit
        previouslyDeferredTxDigests commitRound certs = .ok c ∧ c.Inv maxExecutionDurationPerCommit ∧
      ∀ cert, (∃ objects, cert.transaction.data.inputObjects = .ok objects) →
        ∃ c' r, c.handleCertificate maxExecutionDurationPerCommit previouslyDeferredTxDigests commitRound cert =
          .ok (c', r) ∧ ∀ key l, r = .defer key l → l ≠ [] := by
  have hnodup : ∀ cert : Certificate, (∃ objects, cert.transaction.data.inputObjects = .ok objects) →
      (cert.sharedInputObjects.map (·.id)).Nodup := fun _ ⟨_, h⟩ => TransactionData.nodup_sharedInputObjects h
  obtain ⟨c, hc, hinv, hassign⟩ := (Inv.new mode assignMinFreeExecutionSlot).handleCertificates hmax
    (fun cert hcert => hnodup cert (hcerts cert hcert)) previouslyDeferredTxDigests commitRound
  refine ⟨c, hc, hinv, fun cert hcert => ?_⟩
  obtain ⟨c', r, h, -, -, -, hdefer⟩ :=
    hinv.handleCertificate (hassign ▸ hmax) (hnodup cert hcert) previouslyDeferredTxDigests commitRound
  exact ⟨c', r, h, hdefer⟩

/-- A programmable transaction taking the shared objects `writes` mutably and
`reads` immutably, with no other input. -/
def sharedCertificate (digest gasBudget : ℕ) (writes reads : List ℕ) : Certificate :=
  ⟨⟨digest, ⟨.programmableTransaction (writes.map (fun id => .object (.sharedObject id 1 true)) ++
    reads.map (fun id => .object (.sharedObject id 1 false))) [], []⟩⟩, gasBudget⟩

/-- Object 2 is written for 10 at 0; then object 1 is written, object 2 read,
once up to `MAX_EXECUTION_TIME` and once for 1. -/
def contendedCertificates : List Certificate :=
  [sharedCertificate 0 10 [2] [], sharedCertificate 1 (MAX_EXECUTION_TIME - 10) [1] [2], sharedCertificate 2 1 [1] [2]]

theorem handleCertificates_sound_contended :
    ∃ c, (Commit.new .totalGasBudget true).handleCertificates MAX_EXECUTION_TIME (fun _ => none) 0
        contendedCertificates = .ok c ∧ c.Inv MAX_EXECUTION_TIME ∧
      ∀ cert, (∃ objects, cert.transaction.data.inputObjects = .ok objects) →
        ∃ c' r, c.handleCertificate MAX_EXECUTION_TIME (fun _ => none) 0 cert = .ok (c', r) ∧
          ∀ key l, r = .defer key l → l ≠ [] :=
  handleCertificates_sound .totalGasBudget true MAX_EXECUTION_TIME (fun _ => none) 0 contendedCertificates
    (fun h => nomatch h) (by
      intro cert hcert
      simp only [contendedCertificates, List.mem_cons, List.not_mem_nil, or_false] at hcert
      rcases hcert with rfl | rfl | rfl <;> exact ⟨_, rfl⟩)

/-- After the last free slots with a commit budget of `MAX_EXECUTION_TIME`,
the second certificate takes the end of object 1's only free slot, which then
ends at 10: the third one is scheduled at 10 after object 2 and its slot is not
free on object 1, so removing it panics. And a certificate with no shared
object is scheduled at 0 whatever its duration. -/
theorem handleCertificates_remove_unavailable :
    (Commit.new .totalGasBudget false).handleCertificates MAX_EXECUTION_TIME (fun _ => none) 0
        contendedCertificates = .error "can't remove a slot that is not available" ∧
      (SharedObjectCongestionTracker.new .totalGasBudget true).trySchedule (sharedCertificate 3 20 [] []) 10
        (fun _ => none) 0 = .ok (.schedule 0) :=
  ⟨rfl, rfl⟩

end Commit

end Iota.Core.Congestion
