import Iota.Consensus.TransactionPacking

/-! Every status channel the ack callback hands out is answered once.  Seen from one
channel `c`, the subscriber map is a small machine: `c` waits under one block, once, or
nowhere (`WaitsOn`).  Taking an entry out of the map answers the channels waiting under it
and moves them to nowhere; the committed loop of `notify_own_blocks_status` takes out the
committed blocks, and the `pop_first` loop takes out the blocks at or below the GC round,
all of them, since it visits the blocks in order of round.  The abstract `waitStep` says
what one call does to a waiting channel, and `expectedStatuses` what a run sends it. -/

namespace Iota.Consensus

open Iota.Lib

/-- The status a `status` event sends on channel `c`. -/
def Event.statusTo? (c : ℕ) : Event → Option BlockStatus
  | .status c' st => if c' = c then some st else none
  | _ => none

/-- The statuses a stretch of a run sent on channel `c`. -/
def received (c : ℕ) (events : List Event) : List BlockStatus := events.filterMap (Event.statusTo? c)

@[simp] theorem received_nil (c : ℕ) : received c [] = [] := rfl

@[simp] theorem received_append (c : ℕ) (e e' : List Event) : received c (e ++ e') = received c e ++ received c e' :=
  List.filterMap_append

@[simp] theorem received_status_self (c : ℕ) (status : BlockStatus) (e : List Event) :
    received c (.status c status :: e) = status :: received c e := by
  simp [received, Event.statusTo?]

theorem received_status_of_ne {c c' : ℕ} (h : c' ≠ c) (status : BlockStatus) (e : List Event) :
    received c (.status c' status :: e) = received c e := by
  simp [received, Event.statusTo?, h]

@[simp] theorem received_included (c ack statusChannel : ℕ) (blockRef : BlockRef) (e : List Event) :
    received c (.included ack blockRef statusChannel :: e) = received c e := rfl

namespace TransactionConsumer

theorem received_sendAll (c : ℕ) (status : BlockStatus) :
    ∀ subscribers : List ℕ, received c (sendAll subscribers status) = List.replicate (subscribers.count c) status
  | [] => rfl
  | s :: subscribers => by
    have ih := received_sendAll c status subscribers
    simp only [sendAll, List.map_cons] at ih ⊢
    by_cases hs : s = c
    · subst hs
      rw [received_status_self, ih, List.count_cons_self, List.replicate_succ]
    · rw [received_status_of_ne hs, ih, List.count_cons_of_ne hs]

/-- How many times channel `c` waits under block `k`. -/
def waitCount (m : BlockStatusSubscribers) (c : ℕ) (k : BlockRef) : ℕ := ((m.lookup k).getD []).count c

/-- Where channel `c` waits: once under `b` and under no other block (`some b`), or
nowhere (`none`). -/
def WaitsOn (m : BlockStatusSubscribers) (c : ℕ) (w : Option BlockRef) : Prop :=
  ∀ k, waitCount m c k = if w = some k then 1 else 0

/-- Every channel in the map was created before `n`. -/
def ChannelsBelow (m : BlockStatusSubscribers) (n : ℕ) : Prop := ∀ k l, m.lookup k = some l → ∀ c ∈ l, c < n

/-- Taking the entry of `k` out, with `status` to its channels, for a channel waiting on `w`. -/
def takeWait (k : BlockRef) (status : BlockStatus) (w : Option BlockRef) : List BlockStatus × Option BlockRef :=
  if w = some k then ([status], none) else ([], w)

/-- The committed loop, for a channel waiting on `w`. -/
def commitWait (committedBlocks : List BlockRef) : Option BlockRef → List BlockStatus × Option BlockRef
  | some b => if b ∈ committedBlocks then ([.sequenced b], none) else ([], some b)
  | none => ([], none)

/-- The `pop_first` loop, for a channel waiting on `w`. -/
def collectWait (gcRound : ℕ) : Option BlockRef → List BlockStatus × Option BlockRef
  | some b => if b.round ≤ gcRound then ([.garbageCollected b], none) else ([], some b)
  | none => ([], none)

theorem commitWait_cons (k : BlockRef) (committedBlocks : List BlockRef) (w : Option BlockRef) :
    commitWait (k :: committedBlocks) w =
      ((takeWait k (.sequenced k) w).1 ++ (commitWait committedBlocks (takeWait k (.sequenced k) w).2).1,
        (commitWait committedBlocks (takeWait k (.sequenced k) w).2).2) := by
  rcases w with _ | b
  · rfl
  · by_cases hb : b = k
    · subst hb
      simp [commitWait, takeWait]
    · simp [commitWait, takeWait, hb]

theorem collectWait_of_round_le {k : BlockRef} {gcRound : ℕ} (hround : k.round ≤ gcRound) (w : Option BlockRef) :
    collectWait gcRound w =
      ((takeWait k (.garbageCollected k) w).1 ++ (collectWait gcRound (takeWait k (.garbageCollected k) w).2).1,
        (collectWait gcRound (takeWait k (.garbageCollected k) w).2).2) := by
  rcases w with _ | b
  · rfl
  · by_cases hb : b = k
    · subst hb
      simp [collectWait, takeWait, hround]
    · simp [takeWait, hb]

variable {m m' : BlockStatusSubscribers} {c : ℕ} {w : Option BlockRef}

theorem WaitsOn.congr (hw : WaitsOn m c w) (h : ∀ k, waitCount m' c k = waitCount m c k) : WaitsOn m' c w :=
  fun k => (h k).trans (hw k)

theorem ChannelsBelow.waitsOn_none {n : ℕ} (hbelow : ChannelsBelow m n) (hc : n ≤ c) : WaitsOn m c none := by
  intro k
  simp only [waitCount, reduceCtorEq, if_false]
  cases hk : m.lookup k with
  | none => rfl
  | some l => exact List.count_eq_zero.mpr fun hmem => absurd (hbelow k l hk c hmem) (by omega)

theorem ChannelsBelow.mono {n n' : ℕ} (hbelow : ChannelsBelow m n) (hn : n ≤ n') : ChannelsBelow m n' :=
  fun k l hk c hc => lt_of_lt_of_le (hbelow k l hk c hc) hn

theorem WaitsOn.mem {b : BlockRef} (hw : WaitsOn m c (some b)) : b ∈ m := by
  have h := hw b
  simp only [waitCount] at h
  by_contra hb
  rw [AList.lookup_eq_none.mpr hb] at h
  simp at h

theorem WaitsOn.erase (hw : WaitsOn m c w) (k : BlockRef) (status : BlockStatus) :
    received c (sendAll ((m.lookup k).getD []) status) = (takeWait k status w).1 ∧
      WaitsOn (m.erase k) c (takeWait k status w).2 := by
  have hk := hw k
  refine ⟨?_, fun k' => ?_⟩
  · rw [received_sendAll]
    simp only [waitCount] at hk
    rw [hk, takeWait]
    split_ifs <;> rfl
  · by_cases hk' : k' = k
    · subst hk'
      simp only [waitCount, AList.lookup_erase, takeWait]
      split_ifs with hw' <;> simp_all
    · rw [waitCount, AList.lookup_erase_ne hk', ← waitCount, hw k', takeWait]
      split_ifs with h₁ h₂ h₂ <;> simp_all

theorem waitCount_insert_erase {k : BlockRef} {l : List ℕ} (hk : m.lookup k = some l) (k' : BlockRef) :
    waitCount ((m.erase k).insert k l) c k' = waitCount m c k' := by
  by_cases hk' : k' = k
  · subst hk'
    simp [waitCount, AList.lookup_insert, hk]
  · simp [waitCount, AList.lookup_insert_ne hk', AList.lookup_erase_ne hk']

theorem notifyCommitted_cons (k : BlockRef) (committedBlocks : List BlockRef) (m : BlockStatusSubscribers) :
    notifyCommitted (k :: committedBlocks) m =
      ((notifyCommitted committedBlocks (m.erase k)).1,
        sendAll ((m.lookup k).getD []) (.sequenced k) ++ (notifyCommitted committedBlocks (m.erase k)).2) := by
  rw [notifyCommitted, AList.extract_eq_lookup_erase]
  cases m.lookup k <;> rfl

theorem notifyCommitted_waitsOn :
    ∀ (committedBlocks : List BlockRef) {m : BlockStatusSubscribers} {w : Option BlockRef}, WaitsOn m c w →
      received c (notifyCommitted committedBlocks m).2 = (commitWait committedBlocks w).1 ∧
        WaitsOn (notifyCommitted committedBlocks m).1 c (commitWait committedBlocks w).2
  | [], _, w, hw => by cases w <;> exact ⟨rfl, hw⟩
  | k :: committedBlocks, m, w, hw => by
    obtain ⟨hsent, hw'⟩ := hw.erase k (.sequenced k)
    obtain ⟨hrest, hw''⟩ := notifyCommitted_waitsOn committedBlocks hw'
    rw [notifyCommitted_cons, commitWait_cons, received_append, hsent, hrest]
    exact ⟨rfl, hw''⟩

theorem notifyGarbageCollected_waitsOn (gcRound : ℕ) :
    ∀ {fuel : ℕ} {m : BlockStatusSubscribers} {w : Option BlockRef}, WaitsOn m c w → m.keys.length ≤ fuel →
      received c (notifyGarbageCollected gcRound fuel m).2 = (collectWait gcRound w).1 ∧
        WaitsOn (notifyGarbageCollected gcRound fuel m).1 c (collectWait gcRound w).2
  | 0, m, w, hw, hfuel => by
    rcases w with _ | b
    · exact ⟨rfl, hw⟩
    · have := List.length_pos_of_mem (AList.mem_keys.mp hw.mem)
      omega
  | fuel + 1, m, w, hw, hfuel => by
    cases hpop : popFirst m with
    | none =>
      rcases w with _ | b
      · simp only [notifyGarbageCollected, hpop]
        exact ⟨rfl, hw⟩
      · exact absurd (AList.lookup_isSome.mpr hw.mem) (by simp [lookup_eq_none_of_popFirst_eq_none hpop b])
    | some entry =>
      obtain ⟨k, l, m₁⟩ := entry
      obtain ⟨hk, rfl, hleast⟩ := popFirst_eq_some hpop
      by_cases hround : k.round ≤ gcRound
      · -- the least block is at or below the GC round: its channels are answered
        have hsend : notifyGarbageCollected gcRound (fuel + 1) m =
            ((notifyGarbageCollected gcRound fuel (m.erase k)).1,
              sendAll l (.garbageCollected k) ++ (notifyGarbageCollected gcRound fuel (m.erase k)).2) := by
          simp only [notifyGarbageCollected, hpop, if_pos hround]
        obtain ⟨hsent, hw'⟩ := hw.erase k (.garbageCollected k)
        rw [hk, Option.getD_some] at hsent
        have hfuel' : (m.erase k).keys.length ≤ fuel := by
          have := length_keys_erase_of_lookup hk
          omega
        obtain ⟨hrest, hw''⟩ := notifyGarbageCollected_waitsOn gcRound hw' hfuel'
        rw [hsend, collectWait_of_round_le hround, received_append, hsent, hrest]
        exact ⟨rfl, hw''⟩
      · -- the least block is above the GC round: it is put back, and every block `c`
        -- can wait under is at least as high
        have hstop : notifyGarbageCollected gcRound (fuel + 1) m = ((m.erase k).insert k l, []) := by
          simp only [notifyGarbageCollected, hpop, if_neg hround]
        rw [hstop]
        have hw' : WaitsOn ((m.erase k).insert k l) c w := hw.congr (waitCount_insert_erase hk)
        rcases w with _ | b
        · exact ⟨rfl, hw'⟩
        · have hkb := BlockRef.round_le_of_le (hleast b hw.mem)
          simp only [collectWait, if_neg (show ¬b.round ≤ gcRound by omega)]
          exact ⟨rfl, hw'⟩

theorem channelsBelow_of_waitsOn_none {n : ℕ} (h : ∀ c, n ≤ c → WaitsOn m c none) : ChannelsBelow m n := by
  intro k l hk c hc
  by_contra hge
  have hcount := h c (by omega) k
  simp only [waitCount, hk, Option.getD_some, reduceCtorEq, if_false] at hcount
  exact absurd hcount (List.count_pos_iff.mpr hc).ne'

/-- What `notify_own_blocks_status` does for a channel waiting on `w`. -/
def notifyWait (committedBlocks : List BlockRef) (gcRound : ℕ) (w : Option BlockRef) :
    List BlockStatus × Option BlockRef :=
  ((commitWait committedBlocks w).1 ++ (collectWait gcRound (commitWait committedBlocks w).2).1,
    (collectWait gcRound (commitWait committedBlocks w).2).2)

theorem notifyOwnBlocksStatus_waitsOn (self : TransactionConsumer) (committedBlocks : List BlockRef) (gcRound : ℕ)
    (hw : WaitsOn self.blockStatusSubscribers c w) :
    received c (self.notifyOwnBlocksStatus committedBlocks gcRound).2 = (notifyWait committedBlocks gcRound w).1 ∧
      WaitsOn (self.notifyOwnBlocksStatus committedBlocks gcRound).1.blockStatusSubscribers c
        (notifyWait committedBlocks gcRound w).2 := by
  obtain ⟨hcommitted, hw'⟩ := notifyCommitted_waitsOn committedBlocks hw
  obtain ⟨hcollected, hw''⟩ := notifyGarbageCollected_waitsOn gcRound hw' le_rfl
  exact ⟨by rw [notifyOwnBlocksStatus, received_append, hcommitted, hcollected, notifyWait], hw''⟩

theorem waitCount_insert_push (b : BlockRef) (x : ℕ) (k : BlockRef) :
    waitCount (m.insert b ((m.lookup b).getD [] ++ [x])) c k = waitCount m c k + if k = b ∧ x = c then 1 else 0 := by
  by_cases hk : k = b
  · subst hk
    by_cases hx : x = c
    · subst hx
      simp [waitCount, AList.lookup_insert]
    · simp [waitCount, AList.lookup_insert, hx]
  · simp [waitCount, AList.lookup_insert_ne hk, hk]

theorem ackTransactions_statusChannel (gcEnabled : Bool) (blockRef : BlockRef) :
    ∀ (acks : List ℕ) (m : BlockStatusSubscribers) (n : ℕ),
      (ackTransactions gcEnabled blockRef acks m n).2.1 = n + acks.length
  | [], _, _ => rfl
  | _ :: acks, m, n => by
    unfold ackTransactions
    split_ifs
    · rw [ackTransactions_statusChannel gcEnabled blockRef acks]
      simp only [List.length_cons]
      omega
    · rw [ackTransactions_statusChannel gcEnabled blockRef acks]
      simp only [List.length_cons]
      omega

theorem ackTransactions_waitsOn_of_ne (gcEnabled : Bool) (blockRef : BlockRef) :
    ∀ (acks : List ℕ) {m : BlockStatusSubscribers} {n : ℕ}, (c < n ∨ n + acks.length ≤ c) → WaitsOn m c w →
      received c (ackTransactions gcEnabled blockRef acks m n).2.2 = [] ∧
        WaitsOn (ackTransactions gcEnabled blockRef acks m n).1 c w
  | [], _, _, _, hw => ⟨rfl, hw⟩
  | _ :: acks, m, n, hc, hw => by
    have hne : n ≠ c := by
      simp only [List.length_cons] at hc
      omega
    have hc' : c < n + 1 ∨ n + 1 + acks.length ≤ c := by
      simp only [List.length_cons] at hc
      omega
    unfold ackTransactions
    split_ifs
    · have hw' : WaitsOn (m.insert blockRef ((m.lookup blockRef).getD [] ++ [n])) c w :=
        hw.congr fun k => by simp [waitCount_insert_push, hne]
      obtain ⟨hrest, hw''⟩ := ackTransactions_waitsOn_of_ne gcEnabled blockRef acks hc' hw'
      exact ⟨by rw [received_included, hrest], hw''⟩
    · obtain ⟨hrest, hw''⟩ := ackTransactions_waitsOn_of_ne gcEnabled blockRef acks hc' hw
      exact ⟨by rw [received_status_of_ne hne, received_included, hrest], hw''⟩

theorem ChannelsBelow.ackTransactions {n : ℕ} (hbelow : ChannelsBelow m n) (gcEnabled : Bool) (blockRef : BlockRef)
    (acks : List ℕ) :
    ChannelsBelow (ackTransactions gcEnabled blockRef acks m n).1 (ackTransactions gcEnabled blockRef acks m n).2.1 := by
  rw [ackTransactions_statusChannel]
  exact channelsBelow_of_waitsOn_none fun c hc =>
    (ackTransactions_waitsOn_of_ne gcEnabled blockRef acks (.inr hc) (hbelow.waitsOn_none (by omega))).2

theorem ackTransactions_included (gcEnabled : Bool) (blockRef : BlockRef) :
    ∀ (acks : List ℕ) {m : BlockStatusSubscribers} {n ack : ℕ} {b : BlockRef}, ChannelsBelow m n →
      Event.included ack b c ∈ (ackTransactions gcEnabled blockRef acks m n).2.2 →
      b = blockRef ∧ n ≤ c ∧ c < n + acks.length ∧
        received c (ackTransactions gcEnabled blockRef acks m n).2.2 =
          (if gcEnabled then [] else [.sequenced blockRef]) ∧
        WaitsOn (ackTransactions gcEnabled blockRef acks m n).1 c (if gcEnabled then some blockRef else none)
  | [], _, _, _, _, _, h => by simp [ackTransactions] at h
  | ack₀ :: acks, m, n, ack, b, hbelow, h => by
    unfold ackTransactions at h ⊢
    split_ifs at h ⊢ with hgc
    · -- the first channel is registered under the block
      have hw : WaitsOn (m.insert blockRef ((m.lookup blockRef).getD [] ++ [n])) n (some blockRef) := by
        intro k
        rw [waitCount_insert_push, (hbelow.waitsOn_none le_rfl) k]
        by_cases hk : k = blockRef
        · subst hk
          simp
        · simp [hk, Ne.symm hk]
      have hbelow' : ChannelsBelow (m.insert blockRef ((m.lookup blockRef).getD [] ++ [n])) (n + 1) :=
        channelsBelow_of_waitsOn_none fun c' hc' => (hbelow.waitsOn_none (by omega)).congr fun k => by
          simp [waitCount_insert_push, show n ≠ c' by omega]
      rcases List.mem_cons.mp h with h | h
      · obtain ⟨-, hb, hcn⟩ := Event.included.inj h
        rw [hcn]
        obtain ⟨hrest, hw'⟩ := ackTransactions_waitsOn_of_ne gcEnabled blockRef acks (.inl (Nat.lt_succ_self n)) hw
        exact ⟨hb, le_rfl, by simp, by rw [received_included, hrest], hw'⟩
      · obtain ⟨hb, hle, hlt, hrest, hw'⟩ := ackTransactions_included gcEnabled blockRef acks hbelow' h
        rw [if_pos hgc] at hrest hw'
        exact ⟨hb, by omega, by simp only [List.length_cons]; omega, by rw [received_included, hrest], hw'⟩
    · -- the first channel is told `Sequenced` at once
      rcases List.mem_cons.mp h with h | h
      · cases h
      rcases List.mem_cons.mp h with h | h
      · obtain ⟨-, hb, hcn⟩ := Event.included.inj h
        rw [hcn]
        obtain ⟨hrest, hw'⟩ := ackTransactions_waitsOn_of_ne gcEnabled blockRef acks (.inl (Nat.lt_succ_self n))
          (hbelow.waitsOn_none le_rfl)
        exact ⟨hb, le_rfl, by simp, by rw [received_status_self, received_included, hrest], hw'⟩
      · obtain ⟨hb, hle, hlt, hrest, hw'⟩ := ackTransactions_included gcEnabled blockRef acks (hbelow.mono n.le_succ) h
        rw [if_neg hgc] at hrest hw'
        refine ⟨hb, by omega, by simp only [List.length_cons]; omega, ?_, hw'⟩
        rw [received_status_of_ne (by omega), received_included, hrest]

end TransactionConsumer

namespace TransactionConsumer

theorem next_eq_ok_frame {self : TransactionConsumer} {r : TransactionConsumer × List Transaction × List ℕ × LimitReached}
    (h : self.next = .ok r) : r.1.blockStatusSubscribers = self.blockStatusSubscribers ∧ r.1.context = self.context := by
  unfold next at h
  cases hpending : self.pendingTransactions with
  | none =>
    simp only [hpending, except_pure_bind, except_pure_eq_ok] at h
    subst h
    exact ⟨rfl, rfl⟩
  | some t =>
    rcases hhandle : self.handleTxs ⟨[], [], 0, .allTransactionsIncluded⟩ t with ⟨locals, _ | pendingTransactions⟩
    · simp only [hpending, hhandle, except_pure_bind, except_pure_eq_ok] at h
      subst h
      exact ⟨rfl, rfl⟩
    · simp [hpending, hhandle] at h

end TransactionConsumer

namespace TransactionPipeline

open TransactionConsumer

/-- What one call does for a status channel waiting under block `b` (`some b`) or nowhere
(`none`): a notification that commits `b` answers it with `Sequenced`, one whose GC round
reaches `b`'s round with `GarbageCollected`, in that order; no other call answers it. -/
def waitStep : Option BlockRef → Op → List BlockStatus × Option BlockRef
  | some b, .notifyOwnBlocksStatus committedBlocks gcRound =>
    if b ∈ committedBlocks then ([.sequenced b], none)
    else if b.round ≤ gcRound then ([.garbageCollected b], none)
    else ([], some b)
  | w, _ => ([], w)

/-- The statuses a channel waiting on `w` is sent over the calls `ops`. -/
def expectedStatuses (w : Option BlockRef) : List Op → List BlockStatus
  | [] => []
  | op :: ops => (waitStep w op).1 ++ expectedStatuses (waitStep w op).2 ops

@[simp] theorem waitStep_submitNoWait (w : Option BlockRef) (transactions : List (List UInt8)) :
    waitStep w (.submitNoWait transactions) = ([], w) := by
  cases w <;> rfl

@[simp] theorem waitStep_next (w : Option BlockRef) : waitStep w .next = ([], w) := by
  cases w <;> rfl

@[simp] theorem waitStep_ackTransactions (w : Option BlockRef) (callback : ℕ) (blockRef : BlockRef) :
    waitStep w (.ackTransactions callback blockRef) = ([], w) := by
  cases w <;> rfl

theorem waitStep_none (op : Op) : waitStep none op = ([], none) := by
  cases op <;> rfl

theorem expectedStatuses_none : ∀ ops : List Op, expectedStatuses none ops = []
  | [] => rfl
  | op :: ops => by rw [expectedStatuses, waitStep_none, expectedStatuses_none ops]; rfl

theorem notifyWait_eq_waitStep (committedBlocks : List BlockRef) (gcRound : ℕ) (w : Option BlockRef) :
    notifyWait committedBlocks gcRound w = waitStep w (.notifyOwnBlocksStatus committedBlocks gcRound) := by
  rcases w with _ | b
  · rfl
  · by_cases hb : b ∈ committedBlocks
    · simp [notifyWait, commitWait, collectWait, waitStep, hb]
    · by_cases hround : b.round ≤ gcRound <;> simp [notifyWait, commitWait, collectWait, waitStep, hb, hround]

variable {s s' : TransactionPipeline} {op : Op} {e : List Event}

theorem step_waitsOn (hbelow : ChannelsBelow s.consumer.blockStatusSubscribers s.statusChannels)
    (h : s.step op = .ok (s', e)) :
    ChannelsBelow s'.consumer.blockStatusSubscribers s'.statusChannels ∧ s.statusChannels ≤ s'.statusChannels ∧
      s'.consumer.context = s.consumer.context ∧
      ∀ c w, (c < s.statusChannels ∨ s'.statusChannels ≤ c) → WaitsOn s.consumer.blockStatusSubscribers c w →
        received c e = (waitStep w op).1 ∧ WaitsOn s'.consumer.blockStatusSubscribers c (waitStep w op).2 := by
  cases op with
  | submitNoWait transactions =>
    -- the subscribers stay as they are and no status goes out
    cases hsubmit : s.client.submitNoWait transactions s.acks with
    | error err =>
      simp only [step, hsubmit, Except.ok.injEq, Prod.mk.injEq] at h
      obtain ⟨rfl, rfl⟩ := h
      exact ⟨hbelow, le_rfl, rfl, fun c w _ hw => by rw [waitStep_submitNoWait]; exact ⟨rfl, hw⟩⟩
    | ok t =>
      simp only [step, hsubmit, Except.ok.injEq, Prod.mk.injEq] at h
      obtain ⟨rfl, rfl⟩ := h
      exact ⟨hbelow, le_rfl, rfl, fun c w _ hw => by rw [waitStep_submitNoWait]; exact ⟨rfl, hw⟩⟩
  | next =>
    simp only [step, except_bind_eq_ok, except_pure_eq_ok] at h
    obtain ⟨r, hnext, h⟩ := h
    cases h
    obtain ⟨hsub, hcontext⟩ := next_eq_ok_frame hnext
    refine ⟨by rw [hsub]; exact hbelow, le_rfl, hcontext, fun c w _ hw => ?_⟩
    rw [waitStep_next, hsub]
    exact ⟨rfl, hw⟩
  | ackTransactions callback blockRef =>
    cases hcallback : s.callbacks[callback]? with
    | none =>
      simp only [step, hcallback, Except.ok.injEq, Prod.mk.injEq] at h
      obtain ⟨rfl, rfl⟩ := h
      exact ⟨hbelow, le_rfl, rfl, fun c w _ hw => by rw [waitStep_ackTransactions]; exact ⟨rfl, hw⟩⟩
    | some acks =>
      simp only [step, hcallback, Except.ok.injEq, Prod.mk.injEq] at h
      obtain ⟨rfl, rfl⟩ := h
      refine ⟨hbelow.ackTransactions _ _ _, by simp [ackTransactions_statusChannel], rfl, fun c w hc hw => ?_⟩
      rw [ackTransactions_statusChannel] at hc
      rw [waitStep_ackTransactions]
      exact ackTransactions_waitsOn_of_ne _ _ acks hc hw
  | notifyOwnBlocksStatus committedBlocks gcRound =>
    simp only [step, Except.ok.injEq, Prod.mk.injEq] at h
    obtain ⟨rfl, rfl⟩ := h
    have hmove : ∀ c w, WaitsOn s.consumer.blockStatusSubscribers c w →
        received c (s.consumer.notifyOwnBlocksStatus committedBlocks gcRound).2 =
            (waitStep w (.notifyOwnBlocksStatus committedBlocks gcRound)).1 ∧
          WaitsOn (s.consumer.notifyOwnBlocksStatus committedBlocks gcRound).1.blockStatusSubscribers c
            (waitStep w (.notifyOwnBlocksStatus committedBlocks gcRound)).2 := fun c w hw => by
      rw [← notifyWait_eq_waitStep]
      exact notifyOwnBlocksStatus_waitsOn _ _ _ hw
    refine ⟨channelsBelow_of_waitsOn_none fun c hc => ?_, le_rfl, rfl, fun c w _ hw => hmove c w hw⟩
    have := (hmove c none (hbelow.waitsOn_none hc)).2
    rwa [waitStep_none] at this

theorem run_waitsOn :
    ∀ {ops : List Op} {s s' : TransactionPipeline} {e : List Event},
      ChannelsBelow s.consumer.blockStatusSubscribers s.statusChannels → run ops s = .ok (s', e) →
      ChannelsBelow s'.consumer.blockStatusSubscribers s'.statusChannels ∧ s.statusChannels ≤ s'.statusChannels ∧
        s'.consumer.context = s.consumer.context ∧
        ∀ c w, (c < s.statusChannels ∨ s'.statusChannels ≤ c) → WaitsOn s.consumer.blockStatusSubscribers c w →
          received c e = expectedStatuses w ops
  | [], s, s', e, hbelow, h => by
    cases h
    exact ⟨hbelow, le_rfl, rfl, fun c w _ _ => rfl⟩
  | op :: ops, s, s', e, hbelow, h => by
    obtain ⟨s₁, e₁, e₂, h₁, h₂, rfl⟩ := run_cons_eq_ok.mp h
    obtain ⟨hbelow₁, hle₁, hcontext₁, hmove₁⟩ := step_waitsOn hbelow h₁
    obtain ⟨hbelow₂, hle₂, hcontext₂, hmove₂⟩ := run_waitsOn hbelow₁ h₂
    refine ⟨hbelow₂, le_trans hle₁ hle₂, hcontext₂.trans hcontext₁, fun c w hc hw => ?_⟩
    -- a channel older than the run is older than each call; a newer one is newer than each
    obtain ⟨hsent₁, hw₁⟩ := hmove₁ c w (by omega) hw
    rw [received_append, hsent₁, hmove₂ c _ (by omega) hw₁, expectedStatuses]

theorem received_of_ackTransactions (context : ProtocolConfig) {ops₁ ops₂ : List Op} {s₁ s₂ s₃ : TransactionPipeline}
    {e₁ e₂ e₃ : List Event} {callback : ℕ} {b : BlockRef} {ack c : ℕ}
    (h₁ : run ops₁ (new context) = .ok (s₁, e₁)) (h₂ : s₁.step (.ackTransactions callback b) = .ok (s₂, e₂))
    (h₃ : run ops₂ s₂ = .ok (s₃, e₃)) (hc : Event.included ack b c ∈ e₂) :
    received c (e₁ ++ e₂ ++ e₃) = if 0 < context.gcDepth then expectedStatuses (some b) ops₂ else [.sequenced b] := by
  have hbelow₀ : ChannelsBelow (new context).consumer.blockStatusSubscribers (new context).statusChannels := by
    intro k l hk
    simp [new, TransactionConsumer.new] at hk
  obtain ⟨hbelow₁, -, hcontext₁, hmove₁⟩ := run_waitsOn hbelow₀ h₁
  cases hcallback : s₁.callbacks[callback]? with
  | none =>
    simp only [step, hcallback, Except.ok.injEq, Prod.mk.injEq] at h₂
    obtain ⟨rfl, rfl⟩ := h₂
    cases hc
  | some acks =>
    simp only [step, hcallback, Except.ok.injEq, Prod.mk.injEq] at h₂
    obtain ⟨rfl, rfl⟩ := h₂
    obtain ⟨-, hle, hlt, hsent, hw⟩ := ackTransactions_included _ _ acks hbelow₁ hc
    -- the channel is newer than the run before the callback, which sent it nothing
    have hbefore : received c e₁ = [] := by
      rw [hmove₁ c none (.inr hle) (ChannelsBelow.waitsOn_none (fun k l hk => by simp [new,
        TransactionConsumer.new] at hk) (Nat.zero_le c)), expectedStatuses_none]
    obtain ⟨-, -, -, hmove₃⟩ := run_waitsOn (hbelow₁.ackTransactions _ _ _) h₃
    have hafter := hmove₃ c _ (.inl (by rw [ackTransactions_statusChannel]; exact hlt)) hw
    have hgc : s₁.consumer.gcEnabled = decide (0 < context.gcDepth) := by
      rw [gcEnabled, hcontext₁]
      rfl
    rw [received_append, received_append, hbefore, hsent, hafter, hgc]
    by_cases hdepth : 0 < context.gcDepth
    · simp [hdepth]
    · simp [hdepth, expectedStatuses_none]

/-- The transaction path into own blocks, over every run from the start: no call stops,
so the `debug_fatal!` that drops a pending bundle is never reached; the blocks `next`
returns are whole bundles in channel order, a prefix of what was sent, each within the
protocol's limits; and every status channel that an ack callback for a block hands out gets,
over the whole run, `Sequenced` at once when GC is disabled, and otherwise `Sequenced` at
the first notification that commits the block, unless a notification with a GC round at or
above the block's round came first, which gives `GarbageCollected`, and nothing else. -/
theorem run_packsAndNotifies (context : ProtocolConfig) :
    (∀ ops : List Op, ∃ s events, run ops (new context) = .ok (s, events) ∧
      ∃ groups : List (List TransactionsGuard),
        proposedTransactions events = groups.map (fun g => g.flatMap (·.transactions)) ∧
        groups.flatten <+: sentGuards events ∧
        (proposedTransactions events).flatten <+: (sentGuards events).flatMap (·.transactions) ∧
        ∀ transactions ∈ proposedTransactions events,
          transactions.length ≤ context.maxNumTransactionsInBlock ∧
            dataBytes transactions ≤ context.maxTransactionsInBlockBytes) ∧
    ∀ (ops₁ ops₂ : List Op) (s₁ s₂ s₃ : TransactionPipeline) (e₁ e₂ e₃ : List Event) (callback : ℕ) (b : BlockRef)
      (ack c : ℕ), run ops₁ (new context) = .ok (s₁, e₁) → s₁.step (.ackTransactions callback b) = .ok (s₂, e₂) →
      run ops₂ s₂ = .ok (s₃, e₃) → Event.included ack b c ∈ e₂ →
      received c (e₁ ++ e₂ ++ e₃) =
        if 0 < context.gcDepth then expectedStatuses (some b) ops₂ else [.sequenced b] :=
  ⟨run_packs context, fun _ _ _ _ _ _ _ _ _ _ _ _ h₁ h₂ h₃ hc => received_of_ackTransactions context h₁ h₂ h₃ hc⟩

/-- Limits of eight bytes and two transactions a block, and GC enabled. -/
def pipelineContext : ProtocolConfig := ⟨4, 8, 2, 1⟩

def pipelineBlock : BlockRef := ⟨1, 0, 7⟩

/-- Two bundles, the second too many for the block after the first: it stays pending. -/
def pipelineOps : List Op := [.submitNoWait [[1, 2]], .submitNoWait [[3], [4, 5]], .next]

example : (run pipelineOps (new pipelineContext)).toOption.map (fun r => (proposedTransactions r.2, r.1.queue)) =
    some ([[⟨[1, 2]⟩]], [⟨[⟨[3]⟩, ⟨[4, 5]⟩], 1⟩]) := by
  decide

theorem run_packsAndNotifies_committed :
    ∃ s₁ e₁ s₂ e₂ s₃ e₃, run pipelineOps (new pipelineContext) = .ok (s₁, e₁) ∧
      s₁.step (.ackTransactions 0 pipelineBlock) = .ok (s₂, e₂) ∧
      run [.notifyOwnBlocksStatus [pipelineBlock] 0] s₂ = .ok (s₃, e₃) ∧
      Event.included 0 pipelineBlock 0 ∈ e₂ ∧ received 0 (e₁ ++ e₂ ++ e₃) = [.sequenced pipelineBlock] := by
  refine ⟨_, _, _, _, _, _, rfl, rfl, rfl, by decide, ?_⟩
  exact ((run_packsAndNotifies pipelineContext).2 pipelineOps [.notifyOwnBlocksStatus [pipelineBlock] 0] _ _ _ _ _ _
    0 pipelineBlock 0 0 rfl rfl rfl (by decide)).trans (by decide)

end TransactionPipeline

end Iota.Consensus
