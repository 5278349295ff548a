import Iota.Consensus.Block
import Iota.Lib.Ascending
import Iota.Lib.Except

/-! The path of transactions into own blocks (`consensus/core/src/transaction.rs`).
`TransactionClient::submit_no_wait` checks a bundle against the protocol limits and sends
it on the channel; `TransactionConsumer::next` takes bundles off the channel for the next
block, each whole or not at all, and holds back the first that does not fit; the callback
it returns tells each submitter the block its bundle went into and hands it a status
channel, which `notify_own_blocks_status` later answers with `Sequenced` or
`GarbageCollected`.

Oneshot channels are numbered in the order they are created, and every send is an event
of the run.  The channel from client to consumer is unbounded here: a send that waits for
room is a call that has not happened yet.  Lengths are `u64` and `usize` in the source and
`ℕ` here. -/

namespace Iota.Consensus

open Iota.Lib

/-- `Transaction`: its bytes. -/
structure Transaction where
  data : List UInt8
  deriving DecidableEq, Repr

/-- The summed length of the transactions' data, as `next` counts a bundle's bytes. -/
def dataBytes (transactions : List Transaction) : ℕ := (transactions.map fun t => t.data.length).sum

@[simp] theorem dataBytes_nil : dataBytes [] = 0 := rfl

@[simp] theorem dataBytes_append (l l' : List Transaction) : dataBytes (l ++ l') = dataBytes l + dataBytes l' := by
  simp [dataBytes]

inductive BlockStatus
  | sequenced (blockRef : BlockRef)
  | garbageCollected (blockRef : BlockRef)
  deriving DecidableEq, Repr

inductive LimitReached
  | maxNumOfTransactions
  | maxBytes
  | allTransactionsIncluded
  deriving DecidableEq, Repr

/-- `TransactionsGuard`: a bundle, and the number of the oneshot sender its submitter
waits on. -/
structure TransactionsGuard where
  transactions : List Transaction
  includedInBlockAck : ℕ
  deriving DecidableEq, Repr

/-- The protocol parameters that the client and the consumer read from the context. -/
structure ProtocolConfig where
  maxTransactionSizeBytes : ℕ
  maxTransactionsInBlockBytes : ℕ
  maxNumTransactionsInBlock : ℕ
  gcDepth : ℕ
  deriving DecidableEq, Repr

/-- `ClientError`, without `ConsensusShuttingDown`: the consumer's end of the channel is
never dropped here. -/
inductive ClientError
  | oversizedTransaction (size limit : ℕ)
  | oversizedTransactionBundleBytes (size limit : ℕ)
  | oversizedTransactionBundleCount (count limit : ℕ)
  deriving DecidableEq, Repr

/-- What `next` stops on: `debug_fatal!("Previously pending transaction(s) should fit
into an empty block! Dropping: {:?}")`, which panics in debug builds. -/
inductive ConsumerPanic
  | pendingDropped (transactions : List Transaction)
  deriving DecidableEq, Repr

/-- What a run sends out. -/
inductive Event
  /-- `submit_no_wait` sent a bundle on the channel. -/
  | sent (t : TransactionsGuard)
  /-- `submit_no_wait` returned an error. -/
  | rejected (e : ClientError)
  /-- `next` returned these transactions for a block. -/
  | proposed (transactions : List Transaction) (limitReached : LimitReached)
  /-- An ack callback sent the block reference and a status channel on an ack sender. -/
  | included (ack : ℕ) (blockRef : BlockRef) (statusChannel : ℕ)
  /-- A status went out on a status channel. -/
  | status (statusChannel : ℕ) (status : BlockStatus)
  deriving DecidableEq, Repr

structure TransactionClient where
  maxTransactionSize : ℕ
  maxTransactionsInBlockBytes : ℕ
  maxTransactionsInBlockCount : ℕ
  deriving DecidableEq, Repr

namespace TransactionClient

def new (context : ProtocolConfig) : TransactionClient :=
  ⟨context.maxTransactionSizeBytes, context.maxTransactionsInBlockBytes, context.maxNumTransactionsInBlock⟩

/-- The `for transaction in &transactions` loop of `submit_no_wait`, from the bundle size
so far. -/
def checkTransactions (self : TransactionClient) : ℕ → List (List UInt8) → Except ClientError Unit
  | _, [] => .ok ()
  | bundleSize, transaction :: transactions =>
    if transaction.length > self.maxTransactionSize then
      .error (.oversizedTransaction transaction.length self.maxTransactionSize)
    else if bundleSize + transaction.length > self.maxTransactionsInBlockBytes then
      .error (.oversizedTransactionBundleBytes (bundleSize + transaction.length) self.maxTransactionsInBlockBytes)
    else self.checkTransactions (bundleSize + transaction.length) transactions

/-- `submit_no_wait` up to the send: the guard it sends, with the ack sender `ack`. -/
def submitNoWait (self : TransactionClient) (transactions : List (List UInt8)) (ack : ℕ) :
    Except ClientError TransactionsGuard := do
  if transactions.length > self.maxTransactionsInBlockCount then
    throw (.oversizedTransactionBundleCount transactions.length self.maxTransactionsInBlockCount)
  self.checkTransactions 0 transactions
  return ⟨transactions.map Transaction.mk, ack⟩

theorem checkTransactions_eq_ok {self : TransactionClient} :
    ∀ {bundleSize : ℕ} {transactions : List (List UInt8)}, self.checkTransactions bundleSize transactions = .ok () →
      bundleSize ≤ self.maxTransactionsInBlockBytes →
      bundleSize + (transactions.map List.length).sum ≤ self.maxTransactionsInBlockBytes
  | _, [], _, hle => by simpa using hle
  | bundleSize, transaction :: transactions, h, _ => by
    unfold checkTransactions at h
    split_ifs at h with hsize hbytes
    have hrest := checkTransactions_eq_ok h (by omega)
    simp only [List.map_cons, List.sum_cons]
    omega

theorem submitNoWait_eq_ok {self : TransactionClient} {transactions : List (List UInt8)} {ack : ℕ}
    {t : TransactionsGuard} (h : self.submitNoWait transactions ack = .ok t) :
    t = ⟨transactions.map Transaction.mk, ack⟩ ∧ dataBytes t.transactions ≤ self.maxTransactionsInBlockBytes ∧
      t.transactions.length ≤ self.maxTransactionsInBlockCount := by
  unfold submitNoWait at h
  by_cases hcount : transactions.length > self.maxTransactionsInBlockCount
  · simp [hcount] at h
  simp only [hcount, if_false, except_bind_eq_ok, except_pure_eq_ok] at h
  obtain ⟨⟨⟩, hcheck, rfl⟩ := h
  have hbytes := checkTransactions_eq_ok hcheck (Nat.zero_le _)
  refine ⟨rfl, ?_, by simpa using hcount⟩
  simpa [dataBytes, Function.comp_def] using hbytes

end TransactionClient

/-- `block_status_subscribers`: the status senders waiting on each own block. -/
abbrev BlockStatusSubscribers := AList (fun _ : BlockRef => List ℕ)

structure TransactionConsumer where
  context : ProtocolConfig
  txReceiver : List TransactionsGuard
  maxTransactionsInBlockBytes : ℕ
  maxNumTransactionsInBlock : ℕ
  pendingTransactions : Option TransactionsGuard
  blockStatusSubscribers : BlockStatusSubscribers

namespace TransactionConsumer

def new (txReceiver : List TransactionsGuard) (context : ProtocolConfig) : TransactionConsumer where
  context := context
  txReceiver := txReceiver
  maxTransactionsInBlockBytes := context.maxTransactionsInBlockBytes
  maxNumTransactionsInBlock := context.maxNumTransactionsInBlock
  pendingTransactions := none
  blockStatusSubscribers := ∅

/-- `self.context.protocol_config.gc_depth() > 0`. -/
def gcEnabled (self : TransactionConsumer) : Bool := decide (0 < self.context.gcDepth)

/-- The locals of `next` that `handle_txs` captures. -/
structure NextLocals where
  transactions : List Transaction
  acks : List ℕ
  totalBytes : ℕ
  limitReached : LimitReached

/-- `handle_txs`: the bundle goes into the block whole, or it is handed back. -/
def handleTxs (self : TransactionConsumer) (locals : NextLocals) (t : TransactionsGuard) :
    NextLocals × Option TransactionsGuard :=
  let transactionsBytes := dataBytes t.transactions
  let transactionsNum := t.transactions.length
  if locals.totalBytes + transactionsBytes > self.maxTransactionsInBlockBytes then
    ({ locals with limitReached := .maxBytes }, some t)
  else if locals.transactions.length + transactionsNum > self.maxNumTransactionsInBlock then
    ({ locals with limitReached := .maxNumOfTransactions }, some t)
  else
    ({ locals with
        totalBytes := locals.totalBytes + transactionsBytes
        acks := locals.acks ++ [t.includedInBlockAck]
        transactions := locals.transactions ++ t.transactions }, none)

/-- The `while self.pending_transactions.is_none()` loop: `try_recv` takes bundles off the
channel until one is handed back, which becomes pending, or the channel is empty.  It
gives the locals, the new pending bundle and what is left on the channel. -/
def receiveLoop (self : TransactionConsumer) :
    NextLocals → List TransactionsGuard → NextLocals × Option TransactionsGuard × List TransactionsGuard
  | locals, [] => (locals, none, [])
  | locals, t :: txReceiver =>
    match self.handleTxs locals t with
    | (locals, some pendingTransactions) => (locals, some pendingTransactions, txReceiver)
    | (locals, none) => self.receiveLoop locals txReceiver

/-- `next`: the consumer after the pull, the transactions for the block, the acks its
callback answers, and the limit reached. -/
def next (self : TransactionConsumer) :
    Except ConsumerPanic (TransactionConsumer × List Transaction × List ℕ × LimitReached) := do
  let locals : NextLocals := ⟨[], [], 0, .allTransactionsIncluded⟩
  let locals ← match self.pendingTransactions with
    | none => pure locals
    | some t =>
      match self.handleTxs locals t with
      | (locals, none) => pure locals
      | (_, some pendingTransactions) => throw (.pendingDropped pendingTransactions.transactions)
  let r := self.receiveLoop locals self.txReceiver
  return ({ self with txReceiver := r.2.2, pendingTransactions := r.2.1 }, r.1.transactions, r.1.acks,
    r.1.limitReached)

/-- The callback `next` returns (`ack_transactions` in Core), called with the proposed
block's reference.  Each ack gets a new status channel, numbered from `statusChannel`:
with GC enabled its sender is registered under the block, otherwise it is told
`Sequenced` at once; then the block reference and the channel go to the ack. -/
def ackTransactions (gcEnabled : Bool) (blockRef : BlockRef) :
    List ℕ → BlockStatusSubscribers → ℕ → BlockStatusSubscribers × ℕ × List Event
  | [], subscribers, statusChannel => (subscribers, statusChannel, [])
  | ack :: acks, subscribers, statusChannel =>
    if gcEnabled then
      let r := ackTransactions gcEnabled blockRef acks
        (subscribers.insert blockRef ((subscribers.lookup blockRef).getD [] ++ [statusChannel])) (statusChannel + 1)
      (r.1, r.2.1, .included ack blockRef statusChannel :: r.2.2)
    else
      let r := ackTransactions gcEnabled blockRef acks subscribers (statusChannel + 1)
      (r.1, r.2.1, .status statusChannel (.sequenced blockRef) :: .included ack blockRef statusChannel :: r.2.2)

/-- `subscribers.into_iter().for_each(|s| { let _ = s.send(status); })`. -/
def sendAll (subscribers : List ℕ) (status : BlockStatus) : List Event :=
  subscribers.map fun s => .status s status

/-- The first loop of `notify_own_blocks_status`: the subscribers of each committed block
are removed and told `Sequenced`. -/
def notifyCommitted : List BlockRef → BlockStatusSubscribers → BlockStatusSubscribers × List Event
  | [], subscribers => (subscribers, [])
  | blockRef :: committedBlocks, subscribers =>
    match subscribers.extract blockRef with
    | (some s, subscribers) =>
      let r := notifyCommitted committedBlocks subscribers
      (r.1, sendAll s (.sequenced blockRef) ++ r.2)
    | (none, subscribers) => notifyCommitted committedBlocks subscribers

/-- The `while let Some(..) = pop_first()` loop of `notify_own_blocks_status`: entries at
or below the GC round are removed and told `GarbageCollected`; the first above it is put
back and the loop ends.  Each turn removes an entry, so their number is enough fuel. -/
def notifyGarbageCollected (gcRound : ℕ) : ℕ → BlockStatusSubscribers → BlockStatusSubscribers × List Event
  | 0, subscribers => (subscribers, [])
  | fuel + 1, subscribers =>
    match popFirst subscribers with
    | none => (subscribers, [])
    | some (blockRef, s, subscribers) =>
      if blockRef.round ≤ gcRound then
        let r := notifyGarbageCollected gcRound fuel subscribers
        (r.1, sendAll s (.garbageCollected blockRef) ++ r.2)
      else (subscribers.insert blockRef s, [])

def notifyOwnBlocksStatus (self : TransactionConsumer) (committedBlocks : List BlockRef) (gcRound : ℕ) :
    TransactionConsumer × List Event :=
  let r := notifyCommitted committedBlocks self.blockStatusSubscribers
  let r' := notifyGarbageCollected gcRound r.1.keys.length r.1
  ({ self with blockStatusSubscribers := r'.1 }, r.2 ++ r'.2)

end TransactionConsumer

/-- A client and a consumer over one channel, as `TransactionClient::new` and
`TransactionConsumer::new` set them up, with the oneshot channels created so far and the
callbacks `next` returned that have not been called. -/
structure TransactionPipeline where
  client : TransactionClient
  consumer : TransactionConsumer
  /-- Ack senders created so far: the next bundle's is numbered this. -/
  acks : ℕ
  /-- Status channels created so far. -/
  statusChannels : ℕ
  /-- The acks of each callback `next` returned that has not been called. -/
  callbacks : List (List ℕ)

namespace TransactionPipeline

def new (context : ProtocolConfig) : TransactionPipeline :=
  ⟨TransactionClient.new context, TransactionConsumer.new [] context, 0, 0, []⟩

/-- The calls into the pipeline: a submission, a pull for a block, a call of one of the
callbacks `next` returned, and a notification from a commit. -/
inductive Op
  | submitNoWait (transactions : List (List UInt8))
  | next
  | ackTransactions (callback : ℕ) (blockRef : BlockRef)
  | notifyOwnBlocksStatus (committedBlocks : List BlockRef) (gcRound : ℕ)
  deriving DecidableEq, Repr

def step (s : TransactionPipeline) : Op → Except ConsumerPanic (TransactionPipeline × List Event)
  | .submitNoWait transactions =>
    match s.client.submitNoWait transactions s.acks with
    | .error e => .ok (s, [.rejected e])
    | .ok t =>
      .ok ({ s with consumer := { s.consumer with txReceiver := s.consumer.txReceiver ++ [t] }, acks := s.acks + 1 },
        [.sent t])
  | .next => do
    let r ← s.consumer.next
    return ({ s with consumer := r.1, callbacks := s.callbacks ++ [r.2.2.1] }, [.proposed r.2.1 r.2.2.2])
  | .ackTransactions callback blockRef =>
    match s.callbacks[callback]? with
    | none => .ok (s, [])
    | some acks =>
      let r := TransactionConsumer.ackTransactions s.consumer.gcEnabled blockRef acks
        s.consumer.blockStatusSubscribers s.statusChannels
      .ok ({ s with
          consumer := { s.consumer with blockStatusSubscribers := r.1 }
          statusChannels := r.2.1
          callbacks := s.callbacks.eraseIdx callback }, r.2.2)
  | .notifyOwnBlocksStatus committedBlocks gcRound =>
    let r := s.consumer.notifyOwnBlocksStatus committedBlocks gcRound
    .ok ({ s with consumer := r.1 }, r.2)

def run : List Op → TransactionPipeline → Except ConsumerPanic (TransactionPipeline × List Event)
  | [], s => .ok (s, [])
  | op :: ops, s => do
    let r ← s.step op
    let r' ← run ops r.1
    return (r'.1, r.2 ++ r'.2)

theorem run_cons_eq_ok {op : Op} {ops : List Op} {s s' : TransactionPipeline} {events : List Event} :
    run (op :: ops) s = .ok (s', events) ↔
      ∃ s₁ e₁ e₂, s.step op = .ok (s₁, e₁) ∧ run ops s₁ = .ok (s', e₂) ∧ events = e₁ ++ e₂ := by
  simp only [run, except_bind_eq_ok, except_pure_eq_ok, Prod.exists, Prod.mk.injEq]
  constructor
  · rintro ⟨s₁, e₁, h₁, s₂, e₂, h₂, rfl, rfl⟩
    exact ⟨s₁, e₁, e₂, h₁, h₂, rfl⟩
  · rintro ⟨s₁, e₁, e₂, h₁, h₂, rfl⟩
    exact ⟨s₁, e₁, h₁, s', e₂, h₂, rfl, rfl⟩

end TransactionPipeline

end Iota.Consensus
