import Iota.Consensus.Transaction

/-! `next` packs whole bundles in channel order.  `handle_txs` takes a bundle whole or hands
it back; the receive loop takes bundles off the channel until one is handed back; so one
pull takes a run of whole bundles from the front of the queue (the pending bundle, then the
channel) and keeps the rest queued.  Since the client admits only bundles that fit into an
empty block, and the pending bundle is handled first into an empty block, the
`debug_fatal!` that drops it is never reached.  `Packs` records what a stretch of a run
did to the queue, and composes along the run. -/

namespace Iota.Consensus

open Iota.Lib

namespace TransactionConsumer

variable {self : TransactionConsumer}

/-- The bundle fits into an empty block of the consumer. -/
def Fits (self : TransactionConsumer) (t : TransactionsGuard) : Prop :=
  dataBytes t.transactions ≤ self.maxTransactionsInBlockBytes ∧ t.transactions.length ≤ self.maxNumTransactionsInBlock

/-- What the locals of `next` keep: the running byte count, and a block within the limits. -/
structure LocalsWf (consumer : TransactionConsumer) (locals : NextLocals) : Prop where
  totalBytes_eq : locals.totalBytes = dataBytes locals.transactions
  bytes_le : dataBytes locals.transactions ≤ consumer.maxTransactionsInBlockBytes
  length_le : locals.transactions.length ≤ consumer.maxNumTransactionsInBlock

theorem localsWf_empty (limitReached : LimitReached) : self.LocalsWf ⟨[], [], 0, limitReached⟩ :=
  ⟨rfl, Nat.zero_le _, Nat.zero_le _⟩

theorem handleTxs_cases {locals locals' : NextLocals} {t : TransactionsGuard} {r : Option TransactionsGuard}
    (hwf : self.LocalsWf locals) (h : self.handleTxs locals t = (locals', r)) :
    (r = some t ∧ locals'.transactions = locals.transactions ∧ locals'.totalBytes = locals.totalBytes) ∨
      (r = none ∧ locals'.transactions = locals.transactions ++ t.transactions ∧
        locals'.totalBytes = locals.totalBytes + dataBytes t.transactions ∧
        dataBytes locals.transactions + dataBytes t.transactions ≤ self.maxTransactionsInBlockBytes ∧
        locals.transactions.length + t.transactions.length ≤ self.maxNumTransactionsInBlock) := by
  unfold handleTxs at h
  dsimp only at h
  split_ifs at h with hbytes hnum <;> cases h
  · exact .inl ⟨rfl, rfl, rfl⟩
  · exact .inl ⟨rfl, rfl, rfl⟩
  · rw [hwf.totalBytes_eq] at hbytes
    exact .inr ⟨rfl, rfl, rfl, by omega, by omega⟩

theorem LocalsWf.handleTxs {locals locals' : NextLocals} {t : TransactionsGuard} {r : Option TransactionsGuard}
    (hwf : self.LocalsWf locals) (h : self.handleTxs locals t = (locals', r)) : self.LocalsWf locals' := by
  rcases handleTxs_cases hwf h with ⟨-, htx, hbytes⟩ | ⟨-, htx, hbytes, hle, hlen⟩
  · exact ⟨by rw [htx, hbytes, hwf.totalBytes_eq], htx ▸ hwf.bytes_le, htx ▸ hwf.length_le⟩
  · refine ⟨by rw [htx, hbytes, hwf.totalBytes_eq, dataBytes_append], ?_, ?_⟩
    · rw [htx, dataBytes_append]
      exact hle
    · rw [htx, List.length_append]
      exact hlen

theorem handleTxs_empty_of_fits {t : TransactionsGuard} (hfits : self.Fits t) (limitReached : LimitReached) :
    ∃ locals, self.handleTxs ⟨[], [], 0, limitReached⟩ t = (locals, none) ∧ locals.transactions = t.transactions := by
  unfold handleTxs
  dsimp only
  rw [if_neg (by simpa using hfits.1), if_neg (by simpa using hfits.2)]
  exact ⟨_, rfl, rfl⟩

theorem receiveLoop_spec :
    ∀ {locals : NextLocals} (txReceiver : List TransactionsGuard), self.LocalsWf locals →
      self.LocalsWf (self.receiveLoop locals txReceiver).1 ∧
        ∃ taken : List TransactionsGuard,
          (self.receiveLoop locals txReceiver).1.transactions = locals.transactions ++ taken.flatMap (·.transactions) ∧
          taken ++ (self.receiveLoop locals txReceiver).2.1.toList ++ (self.receiveLoop locals txReceiver).2.2 =
            txReceiver
  | locals, [], hwf => ⟨hwf, [], by simp [receiveLoop]⟩
  | locals, t :: txReceiver, hwf => by
    rcases h : self.handleTxs locals t with ⟨locals', r⟩
    have hwf' := hwf.handleTxs h
    rcases handleTxs_cases hwf h with ⟨rfl, htx, -⟩ | ⟨rfl, htx, -⟩
    · -- handed back: it becomes pending and the loop ends
      simp only [receiveLoop, h]
      exact ⟨hwf', [], by simpa using htx, by simp⟩
    · -- taken whole: the loop goes on with the rest of the channel
      obtain ⟨hwf'', taken, htaken, hrest⟩ := receiveLoop_spec txReceiver hwf'
      simp only [receiveLoop, h]
      refine ⟨hwf'', t :: taken, by rw [htaken, htx]; simp, ?_⟩
      conv_rhs => rw [← hrest]
      simp

theorem next_eq_receiveLoop (hfits : ∀ t ∈ self.pendingTransactions, self.Fits t) :
    ∃ locals : NextLocals, self.LocalsWf locals ∧
      locals.transactions = self.pendingTransactions.toList.flatMap (·.transactions) ∧
      self.next = .ok ({ self with
          txReceiver := (self.receiveLoop locals self.txReceiver).2.2
          pendingTransactions := (self.receiveLoop locals self.txReceiver).2.1 },
        (self.receiveLoop locals self.txReceiver).1.transactions, (self.receiveLoop locals self.txReceiver).1.acks,
        (self.receiveLoop locals self.txReceiver).1.limitReached) := by
  cases hpending : self.pendingTransactions with
  | none => exact ⟨_, localsWf_empty .allTransactionsIncluded, rfl, by simp [next, hpending]⟩
  | some t =>
    obtain ⟨locals, h, htx⟩ := handleTxs_empty_of_fits (hfits t hpending) .allTransactionsIncluded
    exact ⟨locals, (localsWf_empty _).handleTxs h, by simpa using htx, by simp [next, hpending, h]⟩

theorem next_spec (hfits : ∀ t ∈ self.pendingTransactions, self.Fits t) :
    ∃ pendingTransactions txReceiver transactions acks limitReached,
      self.next = .ok ({ self with pendingTransactions, txReceiver }, transactions, acks, limitReached) ∧
      dataBytes transactions ≤ self.maxTransactionsInBlockBytes ∧
      transactions.length ≤ self.maxNumTransactionsInBlock ∧
      ∃ taken : List TransactionsGuard, transactions = taken.flatMap (·.transactions) ∧
        taken ++ pendingTransactions.toList ++ txReceiver = self.pendingTransactions.toList ++ self.txReceiver := by
  obtain ⟨locals, hwf, htaken₀, hnext⟩ := next_eq_receiveLoop hfits
  obtain ⟨hwf', taken, htaken, hrest⟩ := receiveLoop_spec self.txReceiver hwf
  refine ⟨_, _, _, _, _, hnext, hwf'.bytes_le, hwf'.length_le, self.pendingTransactions.toList ++ taken, ?_, ?_⟩
  · rw [htaken, htaken₀, List.flatMap_append]
  · conv_rhs => rw [← hrest]
    simp

end TransactionConsumer

/-- An event for a submitter: the block its bundle went into, or a status. -/
def Event.ToSubmitter : Event → Prop
  | .included .. => True
  | .status .. => True
  | _ => False

def Event.sentGuard? : Event → Option TransactionsGuard
  | .sent t => some t
  | _ => none

def Event.proposed? : Event → Option (List Transaction)
  | .proposed transactions _ => some transactions
  | _ => none

/-- The bundles a stretch of a run sent on the channel, in channel order. -/
def sentGuards (events : List Event) : List TransactionsGuard := events.filterMap Event.sentGuard?

/-- The transaction lists `next` returned in a stretch of a run. -/
def proposedTransactions (events : List Event) : List (List Transaction) := events.filterMap Event.proposed?

@[simp] theorem sentGuards_append (e e' : List Event) : sentGuards (e ++ e') = sentGuards e ++ sentGuards e' :=
  List.filterMap_append

@[simp] theorem proposedTransactions_append (e e' : List Event) :
    proposedTransactions (e ++ e') = proposedTransactions e ++ proposedTransactions e' :=
  List.filterMap_append

theorem sentGuards_eq_nil {events : List Event} (h : ∀ e ∈ events, e.ToSubmitter) : sentGuards events = [] := by
  refine List.filterMap_eq_nil_iff.mpr fun e he => ?_
  cases e <;> first | rfl | exact (h _ he : False).elim

theorem proposedTransactions_eq_nil {events : List Event} (h : ∀ e ∈ events, e.ToSubmitter) :
    proposedTransactions events = [] := by
  refine List.filterMap_eq_nil_iff.mpr fun e he => ?_
  cases e <;> first | rfl | exact (h _ he : False).elim

namespace TransactionConsumer

theorem sendAll_toSubmitter (subscribers : List ℕ) (status : BlockStatus) : ∀ e ∈ sendAll subscribers status, e.ToSubmitter := by
  simp only [sendAll, List.mem_map]
  rintro e ⟨c, -, rfl⟩
  trivial

theorem ackTransactions_toSubmitter (gcEnabled : Bool) (blockRef : BlockRef) :
    ∀ (acks : List ℕ) (subscribers : BlockStatusSubscribers) (statusChannel : ℕ),
      ∀ e ∈ (ackTransactions gcEnabled blockRef acks subscribers statusChannel).2.2, e.ToSubmitter
  | [], _, _ => by simp [ackTransactions]
  | ack :: acks, subscribers, statusChannel => by
    unfold ackTransactions
    split_ifs
    · rintro e (_ | ⟨_, he⟩)
      · trivial
      · exact ackTransactions_toSubmitter gcEnabled blockRef acks _ _ e he
    · rintro e (_ | ⟨_, _ | ⟨_, he⟩⟩)
      · trivial
      · trivial
      · exact ackTransactions_toSubmitter gcEnabled blockRef acks _ _ e he

theorem notifyCommitted_toSubmitter :
    ∀ (committedBlocks : List BlockRef) (subscribers : BlockStatusSubscribers),
      ∀ e ∈ (notifyCommitted committedBlocks subscribers).2, e.ToSubmitter
  | [], _ => by simp [notifyCommitted]
  | blockRef :: committedBlocks, subscribers => by
    unfold notifyCommitted
    split
    · intro e he
      rcases List.mem_append.mp he with he | he
      · exact sendAll_toSubmitter _ _ e he
      · exact notifyCommitted_toSubmitter committedBlocks _ e he
    · exact notifyCommitted_toSubmitter committedBlocks _

theorem notifyGarbageCollected_toSubmitter (gcRound : ℕ) :
    ∀ (fuel : ℕ) (subscribers : BlockStatusSubscribers),
      ∀ e ∈ (notifyGarbageCollected gcRound fuel subscribers).2, e.ToSubmitter
  | 0, _ => by simp [notifyGarbageCollected]
  | fuel + 1, subscribers => by
    unfold notifyGarbageCollected
    split
    · simp
    · split_ifs
      · intro e he
        rcases List.mem_append.mp he with he | he
        · exact sendAll_toSubmitter _ _ e he
        · exact notifyGarbageCollected_toSubmitter gcRound fuel _ e he
      · simp

theorem notifyOwnBlocksStatus_toSubmitter (self : TransactionConsumer) (committedBlocks : List BlockRef) (gcRound : ℕ) :
    ∀ e ∈ (self.notifyOwnBlocksStatus committedBlocks gcRound).2, e.ToSubmitter := by
  intro e he
  rcases List.mem_append.mp he with he | he
  · exact notifyCommitted_toSubmitter _ _ e he
  · exact notifyGarbageCollected_toSubmitter _ _ _ e he

end TransactionConsumer

namespace TransactionPipeline

variable {s : TransactionPipeline}

/-- The bundles waiting for a block: the pending one, then the channel. -/
def queue (s : TransactionPipeline) : List TransactionsGuard :=
  s.consumer.pendingTransactions.toList ++ s.consumer.txReceiver

/-- A stretch of a run took whole bundles, in order, from the queue `q` followed by the
bundles sent in it, one group per block, each block within the limits, and left `q'`. -/
def Packs (maxBytes maxNum : ℕ) (q : List TransactionsGuard) (events : List Event) (q' : List TransactionsGuard) :
    Prop :=
  ∃ groups : List (List TransactionsGuard),
    proposedTransactions events = groups.map (fun g => g.flatMap (·.transactions)) ∧
    (∀ g ∈ groups, dataBytes (g.flatMap (·.transactions)) ≤ maxBytes ∧ (g.flatMap (·.transactions)).length ≤ maxNum) ∧
    groups.flatten ++ q' = q ++ sentGuards events

theorem packs_of_toSubmitter {maxBytes maxNum : ℕ} (q : List TransactionsGuard) {events : List Event}
    (h : ∀ e ∈ events, e.ToSubmitter) : Packs maxBytes maxNum q events q :=
  ⟨[], by rw [proposedTransactions_eq_nil h, List.map_nil], by simp, by simp [sentGuards_eq_nil h]⟩

theorem Packs.trans {maxBytes maxNum : ℕ} {q q₁ q₂ : List TransactionsGuard} {e₁ e₂ : List Event}
    (h₁ : Packs maxBytes maxNum q e₁ q₁) (h₂ : Packs maxBytes maxNum q₁ e₂ q₂) :
    Packs maxBytes maxNum q (e₁ ++ e₂) q₂ := by
  obtain ⟨groups₁, hprop₁, hlim₁, hq₁⟩ := h₁
  obtain ⟨groups₂, hprop₂, hlim₂, hq₂⟩ := h₂
  refine ⟨groups₁ ++ groups₂, by simp [hprop₁, hprop₂], ?_, ?_⟩
  · intro g hg
    rcases List.mem_append.mp hg with hg | hg
    · exact hlim₁ g hg
    · exact hlim₂ g hg
  · calc (groups₁ ++ groups₂).flatten ++ q₂ = groups₁.flatten ++ (groups₂.flatten ++ q₂) := by simp
      _ = groups₁.flatten ++ q₁ ++ sentGuards e₂ := by rw [hq₂]; simp
      _ = q ++ sentGuards (e₁ ++ e₂) := by rw [hq₁]; simp

/-- What a run keeps for the packing: the client checks against the consumer's limits, and
every bundle waiting fits into an empty block. -/
structure Queued (s : TransactionPipeline) : Prop where
  client_bytes : s.client.maxTransactionsInBlockBytes = s.consumer.maxTransactionsInBlockBytes
  client_count : s.client.maxTransactionsInBlockCount = s.consumer.maxNumTransactionsInBlock
  fits : ∀ t ∈ s.queue, s.consumer.Fits t

theorem queued_new (context : ProtocolConfig) : Queued (new context) where
  client_bytes := rfl
  client_count := rfl
  fits _ ht := by simp [queue, new, TransactionConsumer.new] at ht

theorem Queued.of_toSubmitter (hq : Queued s) {s' : TransactionPipeline} {events : List Event}
    (hclient : s'.client = s.client) (hconsumer : s'.consumer = { s.consumer with blockStatusSubscribers :=
      s'.consumer.blockStatusSubscribers }) (h : ∀ e ∈ events, e.ToSubmitter) :
    Queued s' ∧ s'.consumer.maxTransactionsInBlockBytes = s.consumer.maxTransactionsInBlockBytes ∧
      s'.consumer.maxNumTransactionsInBlock = s.consumer.maxNumTransactionsInBlock ∧
      Packs s.consumer.maxTransactionsInBlockBytes s.consumer.maxNumTransactionsInBlock s.queue events s'.queue := by
  have hqueue : s'.queue = s.queue := by rw [queue, queue, hconsumer]
  refine ⟨⟨?_, ?_, ?_⟩, by rw [hconsumer], by rw [hconsumer], hqueue ▸ packs_of_toSubmitter _ h⟩
  · rw [hclient, hconsumer]
    exact hq.client_bytes
  · rw [hclient, hconsumer]
    exact hq.client_count
  · intro t ht
    rw [hconsumer]
    exact hq.fits t (hqueue ▸ ht)

theorem step_queued (hq : Queued s) (op : Op) :
    ∃ s' events, s.step op = .ok (s', events) ∧ Queued s' ∧
      s'.consumer.maxTransactionsInBlockBytes = s.consumer.maxTransactionsInBlockBytes ∧
      s'.consumer.maxNumTransactionsInBlock = s.consumer.maxNumTransactionsInBlock ∧
      Packs s.consumer.maxTransactionsInBlockBytes s.consumer.maxNumTransactionsInBlock s.queue events s'.queue := by
  cases op with
  | submitNoWait transactions =>
    cases hsubmit : s.client.submitNoWait transactions s.acks with
    | error e =>
      have hstep : s.step (.submitNoWait transactions) = .ok (s, [.rejected e]) := by simp [step, hsubmit]
      exact ⟨s, _, hstep, hq, rfl, rfl, [], rfl, by simp, by simp [sentGuards, Event.sentGuard?]⟩
    | ok t =>
      -- the bundle sent joins the back of the channel
      obtain ⟨-, hbytes, hcount⟩ := TransactionClient.submitNoWait_eq_ok hsubmit
      have hstep : s.step (.submitNoWait transactions) =
          .ok ({ s with consumer := { s.consumer with txReceiver := s.consumer.txReceiver ++ [t] }, acks := s.acks + 1 },
            [.sent t]) := by
        simp [step, hsubmit]
      refine ⟨_, _, hstep, ⟨hq.client_bytes, hq.client_count, ?_⟩, rfl, rfl,
        [], rfl, by simp, by simp [queue, sentGuards, Event.sentGuard?]⟩
      intro t' ht'
      have hmem : t' ∈ s.queue ++ [t] := by simpa [queue] using ht'
      rcases List.mem_append.mp hmem with ht' | ht'
      · exact hq.fits t' ht'
      · rw [List.mem_singleton.mp ht']
        exact ⟨hq.client_bytes ▸ hbytes, hq.client_count ▸ hcount⟩
  | next =>
    obtain ⟨pendingTransactions, txReceiver, transactions, acks, limitReached, hnext, hbytes, hlen, taken, htx, hrest⟩ :=
      @TransactionConsumer.next_spec s.consumer
        (fun t ht => hq.fits t (List.mem_append_left _ (Option.mem_toList.mpr ht)))
    have hstep : s.step .next = .ok ({ s with
        consumer := { s.consumer with pendingTransactions, txReceiver }, callbacks := s.callbacks ++ [acks] },
        [.proposed transactions limitReached]) := by
      simp only [step, hnext, except_bind_eq_ok]
      exact ⟨_, rfl, rfl⟩
    refine ⟨_, _, hstep, ⟨hq.client_bytes, hq.client_count, fun t ht => hq.fits t ?_⟩, rfl, rfl,
      [taken], by simp [proposedTransactions, Event.proposed?, htx], ?_, ?_⟩
    · have ht' : t ∈ pendingTransactions.toList ++ txReceiver := ht
      rw [queue, ← hrest, List.append_assoc]
      exact List.mem_append_right _ ht'
    · simpa [htx] using And.intro hbytes hlen
    · simpa [queue, sentGuards, Event.sentGuard?, List.filterMap_cons] using hrest
  | ackTransactions callback blockRef =>
    cases hcallback : s.callbacks[callback]? with
    | none =>
      have hstep : s.step (.ackTransactions callback blockRef) = .ok (s, []) := by simp [step, hcallback]
      exact ⟨s, [], hstep, hq, rfl, rfl, packs_of_toSubmitter _ (by simp)⟩
    | some acks =>
      let r := TransactionConsumer.ackTransactions s.consumer.gcEnabled blockRef acks
        s.consumer.blockStatusSubscribers s.statusChannels
      have hstep : s.step (.ackTransactions callback blockRef) =
          .ok ({ s with
              consumer := { s.consumer with blockStatusSubscribers := r.1 }
              statusChannels := r.2.1
              callbacks := s.callbacks.eraseIdx callback }, r.2.2) := by
        simp [step, hcallback, r]
      exact ⟨_, _, hstep, hq.of_toSubmitter rfl rfl (TransactionConsumer.ackTransactions_toSubmitter _ _ _ _ _)⟩
  | notifyOwnBlocksStatus committedBlocks gcRound =>
    have hstep : s.step (.notifyOwnBlocksStatus committedBlocks gcRound) =
        .ok ({ s with consumer := (s.consumer.notifyOwnBlocksStatus committedBlocks gcRound).1 },
          (s.consumer.notifyOwnBlocksStatus committedBlocks gcRound).2) := rfl
    exact ⟨_, _, hstep, hq.of_toSubmitter rfl rfl (TransactionConsumer.notifyOwnBlocksStatus_toSubmitter _ _ _)⟩

theorem run_queued (hq : Queued s) (ops : List Op) :
    ∃ s' events, run ops s = .ok (s', events) ∧ Queued s' ∧
      Packs s.consumer.maxTransactionsInBlockBytes s.consumer.maxNumTransactionsInBlock s.queue events s'.queue := by
  induction ops generalizing s with
  | nil => exact ⟨s, [], rfl, hq, packs_of_toSubmitter _ (by simp)⟩
  | cons op ops ih =>
    obtain ⟨s₁, e₁, h₁, hq₁, hbytes, hnum, hpacks₁⟩ := step_queued hq op
    obtain ⟨s₂, e₂, h₂, hq₂, hpacks₂⟩ := ih hq₁
    rw [hbytes, hnum] at hpacks₂
    exact ⟨s₂, e₁ ++ e₂, run_cons_eq_ok.mpr ⟨s₁, e₁, e₂, h₁, h₂, rfl⟩, hq₂, hpacks₁.trans hpacks₂⟩

theorem flatten_map_flatMap {α β : Type*} (f : α → List β) :
    ∀ groups : List (List α), (groups.map fun g => g.flatMap f).flatten = groups.flatten.flatMap f
  | [] => rfl
  | g :: groups => by simp [flatten_map_flatMap f groups]

theorem run_packs (context : ProtocolConfig) (ops : List Op) :
    ∃ s events, run ops (new context) = .ok (s, events) ∧
      ∃ groups : List (List TransactionsGuard),
        proposedTransactions events = groups.map (fun g => g.flatMap (·.transactions)) ∧
        groups.flatten <+: sentGuards events ∧
        (proposedTransactions events).flatten <+: (sentGuards events).flatMap (·.transactions) ∧
        ∀ transactions ∈ proposedTransactions events,
          transactions.length ≤ context.maxNumTransactionsInBlock ∧
            dataBytes transactions ≤ context.maxTransactionsInBlockBytes := by
  obtain ⟨s, events, hrun, -, groups, hprop, hlim, hqueue⟩ := run_queued (queued_new context) ops
  have hsent : groups.flatten ++ s.queue = sentGuards events := by simpa [queue, new, TransactionConsumer.new] using hqueue
  refine ⟨s, events, hrun, groups, hprop, ⟨s.queue, hsent⟩, ⟨s.queue.flatMap (·.transactions), ?_⟩, ?_⟩
  · rw [hprop, flatten_map_flatMap, ← List.flatMap_append, hsent]
  · intro transactions htx
    rw [hprop, List.mem_map] at htx
    obtain ⟨g, hg, rfl⟩ := htx
    exact ⟨(hlim g hg).2, (hlim g hg).1⟩

end TransactionPipeline

end Iota.Consensus
