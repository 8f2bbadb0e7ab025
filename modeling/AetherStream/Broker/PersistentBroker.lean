import AetherStream.Broker.Broker
import AetherStream.Wal.CrashReplay

/-! `PersistentBroker`: every value goes to the log before it goes to the queue. -/

namespace AetherStream
open Wal

/-- A trivially copyable type, with `sizeof` and the object representation of its values. -/
class TriviallyCopyable (α : Type*) where
  size : UInt64
  bytes : α → List UInt8
  ofBytes : List UInt8 → α
  length_bytes : ∀ v, (bytes v).length = size.toNat
  ofBytes_bytes : ∀ v, ofBytes (bytes v) = v

instance : TriviallyCopyable UInt8 where
  size := 1
  bytes v := [v]
  ofBytes bs := bs.headD 0
  length_bytes _ := rfl
  ofBytes_bytes _ := rfl

structure PersistentBroker (cap : Capacity) (α : Type*) where
  broker : Broker cap α := {}
  writer : WalWriter := {}
  openStatus : Status := ⟨.invalidArgument, "persistent broker is not open"⟩
  counters : BrokerCounters := {}

namespace PersistentBroker
variable {cap : Capacity} {α : Type*} [TriviallyCopyable α]

def openConfig (b : PersistentBroker cap α) (config : BrokerConfig) (calls : CreateCalls) :
    Status × PersistentBroker cap α :=
  let stopWith (status : Status) : Status × PersistentBroker cap α := (status, { b with openStatus := status })
  let queueStatus := validateQueueConfigForCapacity config.queue cap.size
  let walStatus := validateWalConfigForPayload config.wal (TriviallyCopyable.size α)
  if b.writer.valid then stopWith ⟨.invalidArgument, "persistent broker is already open"⟩
  else if !queueStatus.isOk then stopWith queueStatus
  else if !config.enableWal then stopWith ⟨.invalidArgument, "persistent broker requires WAL to be enabled"⟩
  else if !walStatus.isOk then stopWith walStatus
  else match WalWriter.createConfig config.wal calls with
    | .error status => stopWith status
    | .ok writer => (.ok, { b with writer := writer, openStatus := .ok })

def openWal (b : PersistentBroker cap α) (walConfig : WalConfig) (calls : CreateCalls) :
    Status × PersistentBroker cap α :=
  b.openConfig { queue := { capacity := cap.size }, wal := walConfig, enableWal := true } calls

omit [TriviallyCopyable α] in
def valid (b : PersistentBroker cap α) : Bool := b.openStatus.isOk && b.writer.valid

def messageView (value : α) (flags : UInt32) : MessageView where
  header := { payloadSize := (TriviallyCopyable.size α).toUInt32, flags := flags }
  payload := TriviallyCopyable.bytes value
  length_lt := by rw [TriviallyCopyable.length_bytes]; exact (TriviallyCopyable.size α).toNat_lt

/-- Both overloads: moving a trivially copyable value copies it. -/
def tryPublish (b : PersistentBroker cap α) (value : α) (flags : UInt32) (clock : UInt64) (msyncOk : Bool) :
    Status × PersistentBroker cap α :=
  if !b.valid then (b.openStatus, { b with counters := b.counters.recordPublishFailedInvalid })
  else if b.broker.isFull then
    (⟨.full, "broker queue is full"⟩, { b with counters := b.counters.recordPublishFailedFull })
  else
    let beforeOffset := b.writer.currentOffset
    let (walStatus, writer) := b.writer.append (messageView value flags) clock msyncOk
    let b := { b with writer := writer }
    if !walStatus.isOk then (walStatus, { b with counters := b.counters.recordWalFailure })
    else
      let afterOffset := writer.currentOffset
      let counters :=
        b.counters.recordWalWrite (if beforeOffset ≤ afterOffset then afterOffset - beforeOffset else 0)
      let (publishStatus, broker) := b.broker.tryPublish value
      let b := { b with broker := broker }
      if !publishStatus.isOk then
        (⟨.unknown, "queue publish failed after WAL append"⟩, { b with counters := counters.recordWalFailure })
      else (.ok, { b with counters := counters.recordPublished })

omit [TriviallyCopyable α] in
def tryConsume (b : PersistentBroker cap α) : Status × Option α × PersistentBroker cap α :=
  if !b.valid then (b.openStatus, none, { b with counters := b.counters.recordConsumeFailedInvalid })
  else
    let (status, out, broker) := b.broker.tryConsume
    let counters :=
      if status.isOk then b.counters.recordConsumed
      else if status.code = .empty then b.counters.recordConsumeFailedEmpty else b.counters
    (status, out, { b with broker := broker, counters := counters })

omit [TriviallyCopyable α] in
def flush (b : PersistentBroker cap α) (msyncOk : Bool) : Status × PersistentBroker cap α :=
  if !b.valid then (b.openStatus, { b with counters := b.counters.recordWalFailure })
  else
    let status := b.writer.flush msyncOk
    (status, { b with
      counters := if status.isOk then b.counters.recordWalFlush else b.counters.recordWalFailure })

structure Recovery (σ : Type*) where
  visited : σ
  counters : BrokerCounters
  failureRecorded : Bool := false

def recoveryVisitor {σ : Type*} (visitor : σ → α → WalRecordHeader → Status × σ) (s : Recovery σ)
    (record : WalRecordView) : Status × Recovery σ :=
  if record.payload.length ≠ (TriviallyCopyable.size α).toNat then
    (⟨.corruptedRecord, "WAL payload size does not match persistent broker value type"⟩,
      { s with counters := s.counters.recordRecoveryFailure, failureRecorded := true })
  else
    let (status, visited) := visitor s.visited (TriviallyCopyable.ofBytes record.payload) record.header
    if status.isOk then (status, { s with visited := visited, counters := s.counters.recordRecoveredRecord })
    else (status, ⟨visited, s.counters.recordRecoveryFailure, true⟩)

/-- `content` is what the file at `path` holds; the loop is cut after `fuel` records. -/
def replayWithMetrics {σ : Type*} (path : String) (content : FileContent) (calls : OpenCalls)
    (visitor : σ → α → WalRecordHeader → Status × σ) (visited : σ) (counters : BrokerCounters) (fuel : Nat) :
    Option (Status × σ × BrokerCounters) :=
  match WalReader.openPath path content calls with
  | .error status => some (status, visited, counters.recordRecoveryFailure)
  | .ok reader =>
    match reader.replayLoop (recoveryVisitor visitor) fuel { visited := visited, counters := counters } with
    | none => none
    | some (status, _, s) =>
      some (status, s.visited,
        if !status.isOk && !s.failureRecorded then s.counters.recordRecoveryFailure else s.counters)

def replay {σ : Type*} (path : String) (content : FileContent) (calls : OpenCalls)
    (visitor : σ → α → WalRecordHeader → Status × σ) (visited : σ) (fuel : Nat) : Option (Status × σ) :=
  (replayWithMetrics path content calls visitor visited {} fuel).map fun out => (out.1, out.2.1)

inductive Call (α : Type*) where
  | tryPublish (value : α) (flags : UInt32) (clock : UInt64) (msyncOk : Bool)
  | tryConsume
  | flush (msyncOk : Bool)

abbrev Reply (α : Type*) := Status × Option α

def call (b : PersistentBroker cap α) : Call α → Reply α × PersistentBroker cap α
  | .tryPublish value flags clock msyncOk =>
    let (status, b) := b.tryPublish value flags clock msyncOk
    ((status, none), b)
  | .tryConsume =>
    let (status, out, b) := b.tryConsume
    ((status, out), b)
  | .flush msyncOk =>
    let (status, b) := b.flush msyncOk
    ((status, none), b)

def run (b : PersistentBroker cap α) : List (Call α) → List (Reply α) × PersistentBroker cap α
  | [] => ([], b)
  | c :: cs =>
    let (reply, b) := b.call c
    let (replies, b) := run b cs
    (reply :: replies, b)

end PersistentBroker
end AetherStream
