import AetherStream.Core.Config
import AetherStream.Queue.SpscRingBuffer
import AetherStream.Wal.Record

/-! `BrokerCounters`, the checks that brokers make of their configurations, and `Broker`, the
queue without a log. Calls run to completion here: nobody else is running. -/

namespace AetherStream

structure BrokerCounters where
  published : UInt64 := 0
  consumed : UInt64 := 0
  publishFailedFull : UInt64 := 0
  consumeFailedEmpty : UInt64 := 0
  publishFailedInvalid : UInt64 := 0
  consumeFailedInvalid : UInt64 := 0
  walBytesWritten : UInt64 := 0
  walRecordsWritten : UInt64 := 0
  walFlushes : UInt64 := 0
  walFailures : UInt64 := 0
  recoveredRecords : UInt64 := 0
  recoveryFailures : UInt64 := 0
  deriving DecidableEq, Repr

namespace BrokerCounters

def recordPublished (c : BrokerCounters) : BrokerCounters := { c with published := c.published + 1 }

def recordConsumed (c : BrokerCounters) : BrokerCounters := { c with consumed := c.consumed + 1 }

def recordPublishFailedFull (c : BrokerCounters) : BrokerCounters :=
  { c with publishFailedFull := c.publishFailedFull + 1 }

def recordConsumeFailedEmpty (c : BrokerCounters) : BrokerCounters :=
  { c with consumeFailedEmpty := c.consumeFailedEmpty + 1 }

def recordPublishFailedInvalid (c : BrokerCounters) : BrokerCounters :=
  { c with publishFailedInvalid := c.publishFailedInvalid + 1 }

def recordConsumeFailedInvalid (c : BrokerCounters) : BrokerCounters :=
  { c with consumeFailedInvalid := c.consumeFailedInvalid + 1 }

def recordWalWrite (c : BrokerCounters) (bytes : UInt64) : BrokerCounters :=
  { c with walRecordsWritten := c.walRecordsWritten + 1, walBytesWritten := c.walBytesWritten + bytes }

def recordWalFlush (c : BrokerCounters) : BrokerCounters := { c with walFlushes := c.walFlushes + 1 }

def recordWalFailure (c : BrokerCounters) : BrokerCounters := { c with walFailures := c.walFailures + 1 }

def recordRecoveredRecord (c : BrokerCounters) : BrokerCounters :=
  { c with recoveredRecords := c.recoveredRecords + 1 }

def recordRecoveryFailure (c : BrokerCounters) : BrokerCounters :=
  { c with recoveryFailures := c.recoveryFailures + 1 }

@[simp] def afterPush (c : BrokerCounters) : Bool → Status × BrokerCounters
  | false => (⟨.full, "broker queue is full"⟩, c.recordPublishFailedFull)
  | true => (.ok, c.recordPublished)

@[simp] def afterPop (c : BrokerCounters) : Bool → Status × BrokerCounters
  | false => (⟨.empty, "broker queue is empty"⟩, c.recordConsumeFailedEmpty)
  | true => (.ok, c.recordConsumed)

def recover (c : BrokerCounters) (recovered failures : Nat) : BrokerCounters :=
  { c with
    recoveredRecords := c.recoveredRecords + UInt64.ofNat recovered
    recoveryFailures := c.recoveryFailures + UInt64.ofNat failures }

theorem recover_zero (c : BrokerCounters) : c.recover 0 0 = c := by
  simp [recover]

theorem recordRecoveryFailure_eq (c : BrokerCounters) : c.recordRecoveryFailure = c.recover 0 1 := by
  simp [recover, recordRecoveryFailure]

theorem recordRecoveryFailure_recover (c : BrokerCounters) (recovered : Nat) :
    (c.recover recovered 0).recordRecoveryFailure = c.recover recovered 1 := by
  simp [recover, recordRecoveryFailure]

theorem recover_recordRecoveredRecord (c : BrokerCounters) (recovered failures : Nat) :
    c.recordRecoveredRecord.recover recovered failures = c.recover (recovered + 1) failures := by
  simp only [recover, recordRecoveredRecord, ← Basis.ModularCounter.ofNat_succ]
  rw [UInt64.add_assoc, UInt64.add_comm 1]

end BrokerCounters

def validateQueueConfigForCapacity (config : QueueConfig) (staticCapacity : UInt64) : Status :=
  if !config.validate.isOk then config.validate
  else if config.capacity ≠ staticCapacity then
    ⟨.invalidArgument, "queue config capacity does not match broker template capacity"⟩
  else .ok

def validateWalConfigForPayload (config : WalConfig) (payloadSize : UInt64) : Status :=
  if !config.validate.isOk then config.validate
  else if maxPayloadSize.toUInt64 < payloadSize then
    ⟨.invalidArgument, "broker payload too large for WAL record"⟩
  else if config.fileSizeBytes < Wal.walRecordHeaderSize.toUInt64 + payloadSize then
    ⟨.invalidArgument, "wal file size must fit at least one broker record"⟩
  else .ok

theorem validateWalConfigForPayload_isOk_iff {config : WalConfig} {payloadSize : UInt64} :
    (validateWalConfigForPayload config payloadSize).isOk = true ↔ config.validate.isOk = true ∧
      payloadSize.toNat < 2 ^ 32 ∧ 40 + payloadSize.toNat ≤ config.fileSizeBytes.toNat := by
  have hmax : maxPayloadSize.toUInt64 < payloadSize ↔ 2 ^ 32 ≤ payloadSize.toNat := UInt64.lt_iff_toNat_lt
  have hadd (hsmall : payloadSize.toNat < 2 ^ 32) :
      config.fileSizeBytes < Wal.walRecordHeaderSize.toUInt64 + payloadSize ↔
        config.fileSizeBytes.toNat < 40 + payloadSize.toNat := by
    have hhead : Wal.walRecordHeaderSize.toUInt64.toNat = 40 := rfl
    rw [UInt64.lt_iff_toNat_lt, UInt64.toNat_add, hhead, Nat.mod_eq_of_lt (by omega)]
  unfold validateWalConfigForPayload
  split_ifs with hvalid hpayload hfits
  · rw [Bool.not_eq_true'] at hvalid
    simp [hvalid]
  · exact iff_of_false (by decide) fun h => absurd h.2.1 (not_lt.mpr (hmax.mp hpayload))
  · have hsmall := not_le.mp (mt hmax.mpr hpayload)
    exact iff_of_false (by decide) fun h => absurd ((hadd hsmall).mp hfits) (not_lt.mpr h.2.2)
  · have hsmall := not_le.mp (mt hmax.mpr hpayload)
    exact iff_of_true rfl ⟨by simpa using hvalid, hsmall, not_lt.mp (mt (hadd hsmall).mpr hfits)⟩

theorem walConfig_of_validate {config : WalConfig} {payloadSize : UInt64}
    (h : (validateWalConfigForPayload config payloadSize).isOk = true) :
    config.validate.isOk = true ∧ ¬ config.path.isEmpty = true ∧
      ¬ config.fileSizeBytes < Wal.walRecordHeaderSize.toUInt64 := by
  obtain ⟨hvalid, -, hsize⟩ := validateWalConfigForPayload_isOk_iff.mp h
  refine ⟨hvalid, ?_, ?_⟩
  · intro hpath
    simp [WalConfig.validate, hpath, Status.isOk] at hvalid
  · have hheader : Wal.walRecordHeaderSize.toUInt64.toNat = 40 := rfl
    rw [UInt64.lt_iff_toNat_lt, hheader]
    omega

structure Broker (cap : Capacity) (α : Type*) where
  configStatus : Status := .ok
  queue : Ring cap α := .empty cap α
  counters : BrokerCounters := {}

namespace Broker
variable {cap : Capacity} {α : Type*}

def ofConfig (config : QueueConfig) : Broker cap α :=
  { configStatus := validateQueueConfigForCapacity config cap.size }

def valid (b : Broker cap α) : Bool := b.configStatus.isOk

def tryPublish (b : Broker cap α) (value : α) : Status × Broker cap α :=
  if !b.valid then (b.configStatus, { b with counters := b.counters.recordPublishFailedInvalid })
  else
    let (pushed, queue) := b.queue.tryEmplace value
    let (status, counters) := b.counters.afterPush pushed
    (status, { b with queue := queue, counters := counters })

def tryConsume (b : Broker cap α) : Status × Option α × Broker cap α :=
  if !b.valid then (b.configStatus, none, { b with counters := b.counters.recordConsumeFailedInvalid })
  else
    let (popped, queue) := b.queue.tryPop
    let (status, counters) := b.counters.afterPop popped.isSome
    (status, popped.join, { b with queue := queue, counters := counters })

def isFull (b : Broker cap α) : Bool := b.queue.isFull

theorem tryPublish_of_not_full {b : Broker cap α} (hvalid : b.valid = true) (hfull : b.isFull = false) (v : α) :
    b.tryPublish v =
      (.ok, { b with queue := (b.queue.tryEmplace v).2, counters := b.counters.recordPublished }) := by
  have hlt : ¬ cap.size ≤ b.queue.head.current - b.queue.tail.current := of_decide_eq_false hfull
  rw [tryPublish, hvalid, Ring.tryEmplace, if_neg hlt]
  rfl

theorem valid_tryConsume (b : Broker cap α) : b.tryConsume.2.2.valid = b.valid := by
  unfold tryConsume
  split_ifs <;> rfl

end Broker
end AetherStream
