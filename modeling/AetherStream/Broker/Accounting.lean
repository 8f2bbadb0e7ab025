import AetherStream.Broker.Recovery
import AetherStream.Queue.Sequential

/-! What the counters of a `PersistentBroker` say of the calls that were made, of the log and
of the queue. -/

namespace AetherStream.PersistentBroker
open Basis ModularCounter Wal
variable {cap : Capacity} {α : Type*} [TriviallyCopyable α]

namespace Call
variable {α : Type*}

def isPublish : Call α → Bool
  | tryPublish .. => true
  | _ => false

def isConsume : Call α → Bool
  | tryConsume => true
  | _ => false

def isFlush : Call α → Bool
  | flush _ => true
  | _ => false

theorem countP_kinds (calls : List (Call α)) :
    calls.countP isPublish + calls.countP isConsume + calls.countP isFlush = calls.length := by
  induction calls with
  | nil => rfl
  | cons c cs ih => cases c <;> simp [List.countP_cons, isPublish, isConsume, isFlush] <;> omega

end Call

inductive Outcome where
  | published
  | queueFull
  | appendFailed
  | consumed
  | queueEmpty
  | flushed
  | flushFailed
  deriving DecidableEq, Repr

def outcome (b : PersistentBroker cap α) : Call α → Outcome
  | .tryPublish value flags clock msyncOk =>
    if b.broker.isFull then .queueFull
    else if (b.writer.append (messageView value flags) clock msyncOk).1.isOk then .published
    else .appendFailed
  | .tryConsume => if b.broker.queue.isEmpty then .queueEmpty else .consumed
  | .flush msyncOk => if (b.writer.flush msyncOk).isOk then .flushed else .flushFailed

def outcomes (b : PersistentBroker cap α) : List (Call α) → List Outcome
  | [] => []
  | c :: cs => b.outcome c :: outcomes (b.call c).2 cs

theorem outcome_cases (b : PersistentBroker cap α) (c : Call α) :
    c.isPublish = true ∧ c.isConsume = false ∧ c.isFlush = false ∧
        (b.outcome c = .published ∨ b.outcome c = .queueFull ∨ b.outcome c = .appendFailed) ∨
      c.isPublish = false ∧ c.isConsume = true ∧ c.isFlush = false ∧
        (b.outcome c = .consumed ∨ b.outcome c = .queueEmpty) ∨
      c.isPublish = false ∧ c.isConsume = false ∧ c.isFlush = true ∧
        (b.outcome c = .flushed ∨ b.outcome c = .flushFailed) := by
  cases c with
  | tryPublish value flags clock msyncOk =>
    refine Or.inl ⟨rfl, rfl, rfl, ?_⟩
    rw [outcome]
    split_ifs <;> simp
  | tryConsume =>
    refine Or.inr (Or.inl ⟨rfl, rfl, rfl, ?_⟩)
    rw [outcome]
    split_ifs <;> simp
  | flush msyncOk =>
    refine Or.inr (Or.inr ⟨rfl, rfl, rfl, ?_⟩)
    rw [outcome]
    split_ifs <;> simp

theorem countP_outcomes (b : PersistentBroker cap α) (calls : List (Call α)) :
    calls.countP Call.isPublish = (b.outcomes calls).count .published + (b.outcomes calls).count .queueFull +
        (b.outcomes calls).count .appendFailed ∧
      calls.countP Call.isConsume = (b.outcomes calls).count .consumed + (b.outcomes calls).count .queueEmpty ∧
      calls.countP Call.isFlush = (b.outcomes calls).count .flushed + (b.outcomes calls).count .flushFailed := by
  induction calls generalizing b with
  | nil => exact ⟨rfl, rfl, rfl⟩
  | cons c cs ih =>
    obtain ⟨hpublish, hconsume, hflush⟩ := ih (b.call c).2
    rw [outcomes]
    generalize (b.call c).2.outcomes cs = rest at hpublish hconsume hflush ⊢
    simp only [List.countP_cons, List.count_cons, hpublish, hconsume, hflush]
    rcases b.outcome_cases c with ⟨hp, hc, hf, h | h | h⟩ | ⟨hp, hc, hf, h | h⟩ | ⟨hp, hc, hf, h | h⟩ <;>
      simp [hp, hc, hf, h] <;> omega

def countersOf (history : List Outcome) (bytes : UInt64) : BrokerCounters where
  published := UInt64.ofNat (history.count .published)
  consumed := UInt64.ofNat (history.count .consumed)
  publishFailedFull := UInt64.ofNat (history.count .queueFull)
  consumeFailedEmpty := UInt64.ofNat (history.count .queueEmpty)
  walBytesWritten := bytes
  walRecordsWritten := UInt64.ofNat (history.count .published)
  walFlushes := UInt64.ofNat (history.count .flushed)
  walFailures := UInt64.ofNat (history.count .appendFailed + history.count .flushFailed)

/-- The counters, the log and the queue all tell of the same history. -/
structure Accounts (b : PersistentBroker cap α) (history : List Outcome) : Prop where
  counters : b.counters = countersOf history b.writer.currentOffset
  log : ∃ records, b.Serving records ∧ records.length = history.count .published ∧
    ∀ r ∈ records, r.payload.length = (TriviallyCopyable.size α).toNat
  queue : ∃ accepted, b.broker.queue.Rests accepted (history.count .consumed) ∧
    accepted.length = history.count .published

namespace Accounts
variable {b : PersistentBroker cap α} {history : List Outcome}

theorem published_lt (h : b.Accounts history) : history.count .published < 2 ^ 63 := by
  obtain ⟨records, hserving, hlength, -⟩ := h.log
  exact hlength ▸ hserving.writer.length_lt

theorem toNat_currentOffset (h : b.Accounts history) :
    b.writer.currentOffset.toNat = history.count .published * (40 + (TriviallyCopyable.size α).toNat) := by
  obtain ⟨records, hserving, hlength, hsize⟩ := h.log
  rw [hserving.writer.toNat_currentOffset hsize, hlength]

theorem isFull_iff (h : b.Accounts history) :
    b.broker.isFull = true ↔ history.count .consumed + cap.toNat ≤ history.count .published := by
  obtain ⟨accepted, hrests, haccepted⟩ := h.queue
  rw [← haccepted, ← hrests.full_iff]
  exact decide_eq_true_iff

theorem snoc (h : b.Accounts history) {o : Outcome} (hpublished : o ≠ .published) (hconsumed : o ≠ .consumed)
    {b' : PersistentBroker cap α} (hserving : ∀ records, b.Serving records → b'.Serving records)
    (hqueue : b'.broker.queue = b.broker.queue)
    (hcounters : b'.counters = countersOf (history ++ [o]) b'.writer.currentOffset) :
    b'.Accounts (history ++ [o]) := by
  have hcount : (history ++ [o]).count .published = history.count .published ∧
      (history ++ [o]).count .consumed = history.count .consumed := by
    rw [List.count_append, List.count_append, List.count_singleton, List.count_singleton]
    simp [hpublished, hconsumed]
  refine ⟨hcounters, ?_, ?_⟩
  · obtain ⟨records, hold, hlog⟩ := h.log
    exact ⟨records, hserving records hold, by rw [hcount.1]; exact hlog⟩
  · rw [hcount.1, hcount.2, hqueue]
    exact h.queue

theorem tryPublish (h : b.Accounts history) (value : α) (flags : UInt32) (clock : UInt64) (msyncOk : Bool) :
    (b.tryPublish value flags clock msyncOk).2.Accounts
      (history ++ [b.outcome (.tryPublish value flags clock msyncOk)]) := by
  obtain ⟨records, hserving, hlength, hsize⟩ := h.log
  obtain ⟨accepted, hrests, haccepted⟩ := h.queue
  have happend (records : List Record) (hold : b.Serving records) :=
    hold.writer.append ⟨messageView value flags, clock, msyncOk⟩
  have hcases := tryPublish_cases hserving value flags clock msyncOk
  rw [outcome]
  dsimp only at happend hcases
  generalize b.writer.append (messageView value flags) clock msyncOk = appended at happend hcases ⊢
  obtain ⟨status, writer⟩ := appended
  rcases hcases with ⟨hfull, heq⟩ | ⟨hfull, hok, heq⟩ | ⟨hfull, hok, heq⟩
  · rw [heq, if_pos hfull]
    refine h.snoc (by decide) (by decide) (fun _ hold => ⟨hold.openStatus, hold.broker, hold.writer⟩) rfl ?_
    rw [h.counters]
    simp [countersOf, BrokerCounters.recordPublishFailedFull]
  · -- a record may have been abandoned in the file, but the offset has not moved
    rw [heq, hfull, hok]
    simp only [hok, Bool.false_eq_true, if_false, List.append_nil] at happend
    have hoffset : writer.currentOffset = b.writer.currentOffset := by
      apply UInt64.toNat_inj.mp
      rw [(happend records hserving).offset, hserving.writer.offset]
    refine h.snoc (by decide) (by decide) (fun _ hold => ⟨hold.openStatus, hold.broker, happend _ hold⟩) rfl ?_
    simp [h.counters, hoffset, countersOf, BrokerCounters.recordWalFailure, add_right_comm]
  · have hroom : accepted.length < history.count .consumed + cap.toNat := by
      rw [← not_le, haccepted, ← h.isFull_iff, hfull]
      decide
    obtain ⟨-, hpushed⟩ := hrests.tryEmplace_room hroom value
    simp only [hok, if_true] at happend
    have hholds := happend records hserving
    have hle : b.writer.currentOffset ≤ writer.currentOffset := by
      rw [UInt64.le_iff_toNat_le, hholds.offset, hserving.writer.offset, List.flatMap_append, List.length_append]
      exact Nat.le_add_right _ _
    rw [heq, hfull, hok, Broker.tryPublish_of_not_full hserving.broker hfull, if_pos hle]
    refine ⟨?_, ⟨_, ⟨hserving.openStatus, hserving.broker, hholds⟩, ?_, ?_⟩, accepted ++ [value], ?_, ?_⟩
    · have hbytes : b.writer.currentOffset + (writer.currentOffset - b.writer.currentOffset) =
          writer.currentOffset := by
        rw [UInt64.add_comm, UInt64.sub_add_cancel]
      simp [h.counters, hbytes, countersOf, BrokerCounters.recordWalWrite, BrokerCounters.recordPublished]
    · simp [hlength]
    · intro r hr
      rcases List.mem_append.mp hr with hold | hnew
      · exact hsize r hold
      · rw [List.mem_singleton.mp hnew]
        exact TriviallyCopyable.length_bytes value
    · simpa using hpushed
    · simp [haccepted]

theorem tryConsume (h : b.Accounts history) :
    b.tryConsume.2.2.Accounts (history ++ [b.outcome .tryConsume]) := by
  obtain ⟨records, hserving, hlength, hsize⟩ := h.log
  obtain ⟨accepted, hrests, haccepted⟩ := h.queue
  have hbroker : (!b.broker.valid) = false := by rw [hserving.broker]; rfl
  rw [PersistentBroker.tryConsume, hserving.valid, if_neg (by decide), Broker.tryConsume, hbroker, if_neg (by decide),
    outcome, Ring.isEmpty]
  by_cases hempty : history.count .consumed = accepted.length
  · rw [hrests.tryPop_empty hempty, if_pos (beq_iff_eq.mpr (hrests.empty_iff.mpr hempty).symm)]
    refine h.snoc (by decide) (by decide) (fun _ hold => ⟨hold.openStatus, hold.broker, hold.writer⟩) rfl ?_
    simp [h.counters, countersOf, Status.isOk, BrokerCounters.recordConsumeFailedEmpty]
  · obtain ⟨hvalue, hpopped⟩ := hrests.tryPop_nonempty (lt_of_le_of_ne hrests.popped_le hempty)
    have hne : ¬ (b.broker.queue.head.current == b.broker.queue.tail.current) = true := by
      rw [beq_iff_eq, eq_comm, hrests.empty_iff]
      exact hempty
    rw [if_neg hne]
    generalize b.broker.queue.tryPop = result at hvalue hpopped ⊢
    obtain ⟨value, queue⟩ := result
    obtain rfl : value = _ := hvalue
    refine ⟨?_, ⟨records, ⟨hserving.openStatus, hserving.broker, hserving.writer⟩, ?_, hsize⟩, accepted, ?_, ?_⟩
    · have hok : Status.ok.isOk = true := rfl
      simp [h.counters, hok, countersOf, BrokerCounters.recordConsumed]
    · simpa using hlength
    · simpa using hpopped
    · simpa using haccepted

theorem flush (h : b.Accounts history) (msyncOk : Bool) :
    (b.flush msyncOk).2.Accounts (history ++ [b.outcome (.flush msyncOk)]) := by
  obtain ⟨records, hserving, -⟩ := h.log
  rw [PersistentBroker.flush, hserving.valid, if_neg (by decide), outcome]
  cases hok : (b.writer.flush msyncOk).isOk with
  | true =>
    refine h.snoc (by decide) (by decide) (fun _ hold => ⟨hold.openStatus, hold.broker, hold.writer⟩) rfl ?_
    simp [h.counters, hok, countersOf, BrokerCounters.recordWalFlush]
  | false =>
    refine h.snoc (by decide) (by decide) (fun _ hold => ⟨hold.openStatus, hold.broker, hold.writer⟩) rfl ?_
    simp [h.counters, hok, countersOf, BrokerCounters.recordWalFailure, UInt64.add_assoc]

theorem call (h : b.Accounts history) (c : Call α) : (b.call c).2.Accounts (history ++ [b.outcome c]) := by
  cases c with
  | tryPublish value flags clock msyncOk => exact h.tryPublish value flags clock msyncOk
  | tryConsume => exact h.tryConsume
  | flush msyncOk => exact h.flush msyncOk

theorem run (h : b.Accounts history) (calls : List (Call α)) :
    (b.run calls).2.Accounts (history ++ b.outcomes calls) := by
  induction calls generalizing b history with
  | nil => simpa [PersistentBroker.run, outcomes] using h
  | cons c cs ih =>
    have hrun := ih (h.call c)
    rwa [List.append_assoc, List.singleton_append] at hrun

end Accounts

theorem counters_openAll (opens : List (BrokerConfig × CreateCalls)) :
    (openAll opens : PersistentBroker cap α).counters = {} := by
  refine List.foldlRecOn (motive := fun b : PersistentBroker cap α => b.counters = {}) opens _ rfl ?_
  intro b hb call _
  rcases openConfig_cases b call.1 call.2 with ⟨status, -, heq⟩ | ⟨writer, -, heq⟩
  · rw [heq, hb]
  · rw [heq, hb]

theorem accounts_openAll {opens : List (BrokerConfig × CreateCalls)}
    (hvalid : (openAll opens : PersistentBroker cap α).valid = true) :
    (openAll opens : PersistentBroker cap α).Accounts [] := by
  have hopenable : (openAll opens : PersistentBroker cap α).Openable := openable_openAll opens
  have hserving := hopenable.serving hvalid
  refine ⟨?_, ⟨[], hserving, rfl, by simp⟩, [], ?_, rfl⟩
  · have hoffset : (openAll opens : PersistentBroker cap α).writer.currentOffset = 0 :=
      UInt64.toNat_inj.mp hserving.writer.offset
    rw [counters_openAll, hoffset]
    rfl
  · rw [hopenable.broker]
    exact Ring.rests_empty cap α

structure Balances (b : PersistentBroker cap α) (calls : List (Call α)) (failedAppends failedFlushes : Nat) :
    Prop where
  queue : b.counters.published - b.counters.consumed = b.broker.queue.sizeApprox
  records : b.counters.walRecordsWritten = b.counters.published
  recordsWritten : b.writer.recordsWritten = b.counters.published
  nextSequence : b.writer.nextSequence = b.counters.published
  currentOffset : b.counters.walBytesWritten = b.writer.currentOffset
  publishes : UInt64.ofNat (calls.countP Call.isPublish) =
    b.counters.published + b.counters.publishFailedFull + UInt64.ofNat failedAppends
  consumes : UInt64.ofNat (calls.countP Call.isConsume) = b.counters.consumed + b.counters.consumeFailedEmpty
  flushes : UInt64.ofNat (calls.countP Call.isFlush) = b.counters.walFlushes + UInt64.ofNat failedFlushes
  failures : b.counters.walFailures = UInt64.ofNat (failedAppends + failedFlushes)

structure ExactlyBalances (b : PersistentBroker cap α) (calls : List (Call α))
    (failedAppends failedFlushes : Nat) : Prop where
  publishes : calls.countP Call.isPublish =
    b.counters.published.toNat + b.counters.publishFailedFull.toNat + failedAppends
  consumes : calls.countP Call.isConsume = b.counters.consumed.toNat + b.counters.consumeFailedEmpty.toNat
  flushes : calls.countP Call.isFlush = b.counters.walFlushes.toNat + failedFlushes
  failures : b.counters.walFailures.toNat = failedAppends + failedFlushes

section Balance
variable {b b₀ : PersistentBroker cap α} {calls : List (Call α)}

theorem Accounts.balances (h : b.Accounts (b₀.outcomes calls)) :
    b.Balances calls ((b₀.outcomes calls).count .appendFailed) ((b₀.outcomes calls).count .flushFailed) := by
  obtain ⟨records, hserving, hlength, -⟩ := h.log
  obtain ⟨accepted, hrests, haccepted⟩ := h.queue
  obtain ⟨hpublish, hconsume, hflush⟩ := countP_outcomes b₀ calls
  rw [← haccepted] at hlength
  constructor
  · rw [hrests.sizeApprox_eq, haccepted, h.counters]
    rfl
  · rw [h.counters]
    rfl
  · rw [hserving.writer.written, hlength, haccepted, h.counters]
    rfl
  · rw [hserving.writer.sequence, hlength, haccepted, h.counters]
    rfl
  · rw [h.counters]
    rfl
  · rw [hpublish, ← ofNat_add, ← ofNat_add, h.counters]
    rfl
  · rw [hconsume, ← ofNat_add, h.counters]
    rfl
  · rw [hflush, ← ofNat_add, h.counters]
    rfl
  · rw [h.counters]
    rfl

theorem Accounts.exactlyBalances (h : b.Accounts (b₀.outcomes calls)) (hcalls : calls.length < 2 ^ 64) :
    b.ExactlyBalances calls ((b₀.outcomes calls).count .appendFailed) ((b₀.outcomes calls).count .flushFailed) := by
  -- each counter counts some of the calls, so none of them wraps
  obtain ⟨hpublish, hconsume, hflush⟩ := countP_outcomes b₀ calls
  have hkinds := Call.countP_kinds calls
  have hexact {n : Nat} (hle : n ≤ calls.length) : (UInt64.ofNat n).toNat = n :=
    UInt64.toNat_ofNat_of_lt' (show n < 2 ^ 64 by omega)
  constructor
  · rw [h.counters, countersOf, hexact (by omega), hexact (by omega), hpublish]
  · rw [h.counters, countersOf, hexact (by omega), hexact (by omega), hconsume]
  · rw [h.counters, countersOf, hexact (by omega), hflush]
  · rw [h.counters, countersOf, hexact (by omega)]

end Balance

/-- After any calls on an opened broker the counters balance with the log, the queue and the
calls. What was published, consumed and written is counted without wrapping. -/
theorem counters_balance (opens : List (BrokerConfig × CreateCalls)) (calls : List (Call α))
    (hvalid : (openAll opens : PersistentBroker cap α).valid = true) :
    let b₀ : PersistentBroker cap α := openAll opens
    let b := (b₀.run calls).2
    let failedAppends := (b₀.outcomes calls).count .appendFailed
    let failedFlushes := (b₀.outcomes calls).count .flushFailed
    b.Balances calls failedAppends failedFlushes ∧
      b.counters.published.toNat = b.counters.consumed.toNat + b.broker.queue.sizeApprox.toNat ∧
      b.counters.walBytesWritten.toNat = b.counters.published.toNat * (40 + (TriviallyCopyable.size α).toNat) ∧
      (calls.length < 2 ^ 64 → b.ExactlyBalances calls failedAppends failedFlushes) := by
  intro b₀ b failedAppends failedFlushes
  have h : b.Accounts (b₀.outcomes calls) := (accounts_openAll hvalid).run calls
  obtain ⟨accepted, hrests, haccepted⟩ := h.queue
  have hlt := h.published_lt
  have hle := hrests.popped_le
  have hpublished : b.counters.published.toNat = (b₀.outcomes calls).count .published := by
    rw [h.counters]
    exact UInt64.toNat_ofNat_of_lt' (show _ < 2 ^ 64 by omega)
  have hconsumed : b.counters.consumed.toNat = (b₀.outcomes calls).count .consumed := by
    rw [h.counters]
    exact UInt64.toNat_ofNat_of_lt' (show _ < 2 ^ 64 by omega)
  refine ⟨h.balances, ?_, ?_, h.exactlyBalances⟩
  · rw [hrests.toNat_sizeApprox, hpublished, hconsumed]
    omega
  · rw [h.balances.currentOffset, h.toNat_currentOffset, hpublished]

def busyCalls : List (Call UInt8) :=
  [.tryConsume, .tryPublish 7 0 5 false, .tryPublish 7 0 5 true, .tryPublish 8 0 6 true, .tryPublish 9 0 7 true,
    .tryConsume, .tryPublish 9 0 8 true, .flush true, .flush false]

theorem counters_balance_busyCalls :
    let b₀ : PersistentBroker .least UInt8 := openAll [(smallConfig, ⟨some 3, true, some 4096⟩)]
    let b := (b₀.run busyCalls).2
    b.counters = { published := 2, consumed := 1, publishFailedFull := 1, consumeFailedEmpty := 1,
                   walBytesWritten := 82, walRecordsWritten := 2, walFlushes := 1, walFailures := 3 } ∧
      b.ExactlyBalances busyCalls 2 1 := by
  refine ⟨by decide +kernel, ?_⟩
  have hvalid :
      (openAll [(smallConfig, ⟨some 3, true, some 4096⟩)] : PersistentBroker .least UInt8).valid = true := rfl
  exact (counters_balance _ busyCalls hvalid).2.2.2 (by decide)

end AetherStream.PersistentBroker
