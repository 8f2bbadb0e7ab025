import AetherStream.Broker.Capacity
import AetherStream.Cli.Options

/-! `aether_pub`: a loop that publishes generated events into a broker from which nobody
consumes. -/

namespace AetherStream.Cli
open Basis Bytes Wal PersistentBroker

/-- `price` is the word of a `double`; `padding` is what stands behind `quantity` in memory. -/
structure OrderEvent where
  id : UInt64
  price : UInt64
  quantity : UInt32
  padding : UInt32
  deriving DecidableEq, Repr

/-- `100.0 + k * 0.25` is exact: `100.0` is `0x4059000000000000`, and up to `128` a quarter is
`2 ^ 44` units in the last place. -/
def makeEvent (i : UInt64) (padding : UInt32) : OrderEvent where
  id := i + 1
  price := 0x4059000000000000 + (i % 100) * 0x100000000000
  quantity := 1 + (i % 1000).toUInt32
  padding := padding

def OrderEvent.fields (e : OrderEvent) : List (Nat × Nat) :=
  [(8, e.id.toNat), (8, e.price.toNat), (4, e.quantity.toNat), (4, e.padding.toNat)]

instance : TriviallyCopyable OrderEvent where
  size := 24
  bytes e := encodeFields e.fields
  ofBytes bytes :=
    { id := readU64Le bytes 0
      price := readU64Le bytes 8
      quantity := readU32Le bytes 16
      padding := readU32Le bytes 20 }
  length_bytes e := length_encodeFields e.fields
  ofBytes_bytes e := by
    have hid : readU64Le (encodeFields e.fields ++ []) 0 = e.id := readU64Le_encodeFields (i := 0) rfl rfl []
    have hprice : readU64Le (encodeFields e.fields ++ []) 8 = e.price := readU64Le_encodeFields (i := 1) rfl rfl []
    have hquantity : readU32Le (encodeFields e.fields ++ []) 16 = e.quantity :=
      readU32Le_encodeFields (i := 2) rfl rfl []
    have hpadding : readU32Le (encodeFields e.fields ++ []) 20 = e.padding :=
      readU32Le_encodeFields (i := 3) rfl rfl []
    rw [← List.append_nil (encodeFields e.fields), hid, hprice, hquantity, hpadding]

def pubCapacity : Capacity := ⟨65536, by decide, by decide⟩

abbrev PubBroker := PersistentBroker pubCapacity OrderEvent

/-- What the system does during a run: whether `create_directories` returns, the calls of
`create`, and for each message the bytes of padding, the clock and the flush. -/
structure PubCalls where
  directories : Bool
  create : CreateCalls
  padding : UInt64 → UInt32
  clock : UInt64 → UInt64
  msync : UInt64 → Bool
  flush : Bool

def publishLoop (calls : PubCalls) : Nat → UInt64 → PubBroker → Option Status × PubBroker
  | 0, _, broker => (none, broker)
  | left + 1, i, broker =>
    match broker.tryPublish (makeEvent i (calls.padding i)) 0 (calls.clock i) (calls.msync i) with
    | (status, broker) => if !status.isOk then (some status, broker) else publishLoop calls left (i + 1) broker

def quoted (path : String) : String :=
  "\"" ++ String.ofList (path.toList.flatMap fun c => if c = '"' ∨ c = '\\' then ['\\', c] else [c]) ++ "\""

def hasParentPath (path : String) : Bool := path.contains '/'

def PubOptions.walConfig (options : PubOptions) : WalConfig where
  path := options.walPath
  fileSizeBytes := options.walSizeBytes
  flushOnCommit := options.flushOnCommit

def pubReport (options : PubOptions) (broker : PubBroker) : List String :=
  ["aether_pub wrote local demo OrderEvent records\n",
    "wal path: " ++ quoted options.walPath ++ "\n",
    "messages requested: " ++ toString options.messages ++ "\n",
    "records written: " ++ toString broker.writer.recordsWritten ++ "\n",
    "metrics.published: " ++ toString broker.counters.published ++ "\n",
    "metrics.wal_records_written: " ++ toString broker.counters.walRecordsWritten ++ "\n",
    "metrics.wal_bytes_written: " ++ toString broker.counters.walBytesWritten ++ "\n",
    "metrics.wal_flushes: " ++ toString broker.counters.walFlushes ++ "\n",
    "metrics.publish_failed_full: " ++ toString broker.counters.publishFailedFull ++ "\n",
    "metrics.wal_failures: " ++ toString broker.counters.walFailures ++ "\n",
    "next sequence: " ++ toString broker.writer.nextSequence ++ "\n",
    "current WAL offset: " ++ toString broker.writer.currentOffset ++ "\n",
    "remaining WAL space: " ++ toString broker.writer.remainingSpace ++ "\n"]

structure PubRun where
  exit : Exit
  broker : PubBroker := {}

def PubRun.failed (status : Status) (broker : PubBroker) : PubRun :=
  ⟨{ status := 1, err := [printError status] }, broker⟩

/-- `main` behind its parser, unless `create_directories` throws. -/
def pub (parsed : Expected PubOptions) (calls : PubCalls) : Option PubRun :=
  match parsed with
  | .error status => some { exit := { status := 2, err := [printError status] } }
  | .ok options =>
    if options.help then some { exit := { status := 0, out := [pubHelp] } }
    else if hasParentPath options.walPath && !calls.directories then none
    else match ({} : PubBroker).openWal options.walConfig calls.create with
      | (status, broker) =>
        if !status.isOk then some (.failed status broker)
        else match publishLoop calls options.messages.toNat 0 broker with
          | (some status, broker) => some (.failed status broker)
          | (none, broker) =>
            match broker.flush calls.flush with
            | (status, broker) =>
              if !status.isOk then some (.failed status broker)
              else some ⟨{ status := 0, out := pubReport options broker }, broker⟩

def PubCalls.event (calls : PubCalls) (i : Nat) : OrderEvent :=
  makeEvent (UInt64.ofNat i) (calls.padding (UInt64.ofNat i))

def PubCalls.events (calls : PubCalls) (n : Nat) : List OrderEvent := (List.range n).map calls.event

structure Progress (calls : PubCalls) (size : UInt64) (i : Nat) (broker : PubBroker) : Prop where
  logs : broker.Logs (calls.events i) none
  accounts : broker.Accounts (List.replicate i .published)
  fileSize : broker.writer.file.size = size

namespace Progress
variable {calls : PubCalls} {size : UInt64} {i : Nat} {broker : PubBroker} (h : Progress calls size i broker)
include h

theorem isFull_iff : broker.broker.isFull = true ↔ 65536 ≤ i := by
  have hcap : pubCapacity.toNat = 65536 := rfl
  rw [h.accounts.isFull_iff, List.count_replicate_self, hcap, List.count_replicate]
  simp

theorem tryPublish_full (hfull : 65536 ≤ i) (value : OrderEvent) (clock : UInt64) (msyncOk : Bool) :
    ∃ broker', broker.tryPublish value 0 clock msyncOk = (⟨.full, "broker queue is full"⟩, broker') := by
  obtain ⟨records, hserving, -⟩ := h.accounts.log
  obtain ⟨-, heq⟩ | ⟨hnot, -⟩ | ⟨hnot, -⟩ := tryPublish_cases hserving value 0 clock msyncOk
  · exact ⟨_, heq⟩
  · rw [h.isFull_iff.mpr hfull] at hnot
    contradiction
  · rw [h.isFull_iff.mpr hfull] at hnot
    contradiction

theorem tryPublish_room (hroom : i < 65536) (hfits : (i + 1) * 64 ≤ size.toNat) (clock : UInt64) :
    ∃ broker', broker.tryPublish (calls.event i) 0 clock true = (.ok, broker') ∧
      Progress calls size (i + 1) broker' := by
  obtain ⟨records, hserving, -⟩ := h.accounts.log
  have hnot : broker.broker.isFull = false := by
    rw [← Bool.not_eq_true, h.isFull_iff]
    omega
  have hcapacity : (calls.events i).length < recordCapacity OrderEvent broker.writer.file.size := by
    rw [lt_recordCapacity_iff, h.fileSize, PubCalls.events, List.length_map, List.length_range]
    exact hfits
  have hok := h.logs.tryPublish_room (by decide) (calls.event i) 0 clock hnot hcapacity
  have hlogs := h.logs.tryPublish (calls.event i) 0 clock true
  have haccounts := h.accounts.tryPublish (calls.event i) 0 clock true
  refine ⟨_, Prod.ext hok rfl, ?_, ?_, ?_⟩
  · have hnone : broker.abandonedBy none (.tryPublish (calls.event i) 0 clock true) = none := by simp [abandonedBy]
    rw [hnone] at hlogs
    simp only [call, publishedBy, hok] at hlogs
    rw [PubCalls.events, List.range_succ, List.map_append]
    exact hlogs
  · rw [outcome_of_isOk hserving (by rw [hok]; rfl)] at haccounts
    rw [List.replicate_succ']
    exact haccounts
  · rw [size_tryPublish, h.fileSize]

theorem publishLoop_add {m : Nat} (hroom : i + m ≤ 65536) (hfits : (i + m) * 64 ≤ size.toNat)
    (hmsync : ∀ i, calls.msync i = true) (left : Nat) :
    ∃ broker', publishLoop calls (m + left) (UInt64.ofNat i) broker =
        publishLoop calls left (UInt64.ofNat (i + m)) broker' ∧
      Progress calls size (i + m) broker' := by
  induction m generalizing i broker with
  | zero => exact ⟨broker, by rw [Nat.zero_add, Nat.add_zero], h⟩
  | succ m ih =>
    obtain ⟨broker₁, hpublish, hnext⟩ := h.tryPublish_room (by omega) (by omega) (calls.clock (UInt64.ofNat i))
    obtain ⟨broker', hloop, hfinal⟩ := ih hnext (by omega) (by omega)
    rw [PubCalls.event] at hpublish
    rw [Nat.add_assoc, Nat.add_comm 1, ← ModularCounter.ofNat_succ i] at hloop
    rw [Nat.add_assoc, Nat.add_comm 1] at hfinal
    rw [Nat.add_right_comm, publishLoop, hmsync, hpublish]
    exact ⟨broker', hloop, hfinal⟩

end Progress

structure PubCalls.Succeed (calls : PubCalls) (size : UInt64) : Prop where
  directories : calls.directories = true
  create : CreateSucceeds calls.create size
  msync : ∀ i, calls.msync i = true
  flush : calls.flush = true

/-- What the user asked for: success, and a log of one record for each message, with nothing
behind them. -/
def PubRun.WritesAll (run : PubRun) (calls : PubCalls) (messages : UInt64) : Prop :=
  run.exit.status = 0 ∧ run.broker.Logs (calls.events messages.toNat) none

section Main
variable {options : PubOptions} {calls : PubCalls} (hhelp : options.help = false)
  (hvalid : (validateWalConfigForPayload options.walConfig (TriviallyCopyable.size OrderEvent)).isOk = true)
  (hcalls : calls.Succeed options.walSizeBytes)
include hhelp hvalid hcalls

theorem exists_pub_eq : ∃ broker : PubBroker, Progress calls options.walSizeBytes 0 broker ∧
    pub (.ok options) calls =
      match publishLoop calls options.messages.toNat 0 broker with
      | (some status, broker) => some (.failed status broker)
      | (none, broker) =>
        match broker.flush true with
        | (status, broker) =>
          if !status.isOk then some (.failed status broker)
          else some ⟨{ status := 0, out := pubReport options broker }, broker⟩ := by
  obtain ⟨broker, hopen⟩ : ∃ broker : PubBroker,
      ({} : PubBroker).openWal options.walConfig calls.create = (.ok, broker) :=
    openWal_succeeds hvalid hcalls.create
  have hopened : broker.Opened _ := opened [] hopen
  refine ⟨broker, ⟨hopened.logs, hopened.accounts, hopened.fileSize⟩, ?_⟩
  simp only [pub, hhelp, hcalls.directories, hopen, hcalls.flush]
  simp

variable (hsize : max 1 options.messages.toNat * 64 ≤ options.walSizeBytes.toNat)
include hsize

theorem pub_of_le (hmessages : options.messages.toNat ≤ 65536) :
    ∃ run, pub (.ok options) calls = some run ∧ run.WritesAll calls options.messages := by
  obtain ⟨broker, hstart, hpub⟩ := exists_pub_eq hhelp hvalid hcalls
  obtain ⟨broker', hloop, hdone⟩ :=
    hstart.publishLoop_add (m := options.messages.toNat) (by omega) (by omega) hcalls.msync 0
  rw [Nat.zero_add] at hdone
  obtain ⟨records, hserving, -⟩ := hdone.accounts.log
  have hflush : broker'.flush true = (.ok, { broker' with counters := broker'.counters.recordWalFlush }) := by
    rw [flush, hserving.valid, WalWriter.flush_of_valid hserving.writer.valid]
    rfl
  have hlogs := hdone.logs.call (.flush true)
  rw [call, hflush] at hlogs
  rw [hpub, show (0 : UInt64) = UInt64.ofNat 0 from rfl, ← Nat.add_zero options.messages.toNat, hloop, publishLoop]
  dsimp only
  rw [hflush]
  exact ⟨_, rfl, rfl, by simpa [publishedBy, abandonedBy] using hlogs⟩

theorem pub_of_gt (hmessages : 65536 < options.messages.toNat) :
    ∃ broker, pub (.ok options) calls =
      some ⟨{ status := 1, err := ["error: broker queue is full\n"] }, broker⟩ := by
  obtain ⟨broker, hstart, hpub⟩ := exists_pub_eq hhelp hvalid hcalls
  obtain ⟨left, hleft⟩ : ∃ left, options.messages.toNat = 65536 + (left + 1) :=
    ⟨options.messages.toNat - 65537, by omega⟩
  obtain ⟨broker', hloop, hdone⟩ :=
    hstart.publishLoop_add (m := 65536) (by omega) (by omega) hcalls.msync (left + 1)
  obtain ⟨broker'', hfull⟩ := hdone.tryPublish_full (by omega) (calls.event (0 + 65536))
    (calls.clock (UInt64.ofNat (0 + 65536))) (calls.msync (UInt64.ofNat (0 + 65536)))
  rw [PubCalls.event] at hfull
  rw [hpub, show (0 : UInt64) = UInt64.ofNat 0 from rfl, hleft, hloop, publishLoop, hfull]
  exact ⟨broker'', rfl⟩

end Main

/-- For every number of messages and every log that has room for them, with all system calls
succeeding: the tool writes what was asked for exactly if the queue can hold it all. -/
theorem pub_writesAll_iff (options : PubOptions) (calls : PubCalls) (hhelp : options.help = false)
    (hvalid : (validateWalConfigForPayload options.walConfig (TriviallyCopyable.size OrderEvent)).isOk = true)
    (hsize : max 1 options.messages.toNat * (40 + (TriviallyCopyable.size OrderEvent).toNat) ≤
      options.walSizeBytes.toNat)
    (hcalls : calls.Succeed options.walSizeBytes) :
    (∃ run, pub (.ok options) calls = some run ∧ run.WritesAll calls options.messages) ↔
      options.messages.toNat ≤ 65536 := by
  constructor
  · rintro ⟨run, hrun, hstatus, -⟩
    by_contra hgt
    obtain ⟨broker, hpub⟩ := pub_of_gt hhelp hvalid hcalls hsize (not_le.mp hgt)
    obtain rfl := Option.some.inj (hrun.symm.trans hpub)
    contradiction
  · exact pub_of_le hhelp hvalid hcalls hsize

def quietCalls : PubCalls where
  directories := true
  create := ⟨some 3, true, some 4096⟩
  padding _ := 0
  clock i := i
  msync _ := true
  flush := true

theorem quietCalls_succeed {size : UInt64} (h : size.toNat < 2 ^ 63) : quietCalls.Succeed size :=
  ⟨rfl, ⟨rfl, rfl, h, rfl⟩, fun _ => rfl, rfl⟩

theorem pub_writesAll_defaults :
    ∃ run, pub (.ok {}) quietCalls = some run ∧ run.WritesAll quietCalls 1000 :=
  (pub_writesAll_iff {} quietCalls rfl (by decide) (by decide) (quietCalls_succeed (by decide))).mpr (by decide)

/-- `--messages 65537` with the default size of the log, which has room for more than a million. -/
theorem not_pub_writesAll_past_queue :
    (∃ broker, pub (.ok { messages := 65537 }) quietCalls =
        some ⟨{ status := 1, err := ["error: broker queue is full\n"] }, broker⟩) ∧
      ¬ ∃ run, pub (.ok { messages := 65537 }) quietCalls = some run ∧ run.WritesAll quietCalls 65537 := by
  obtain ⟨broker, hpub⟩ := pub_of_gt (show ({ messages := 65537 } : PubOptions).help = false from rfl) (by decide)
    (quietCalls_succeed (by decide)) (by decide) (by decide)
  refine ⟨⟨broker, hpub⟩, ?_⟩
  rintro ⟨run, hrun, hstatus, -⟩
  obtain rfl := Option.some.inj (hrun.symm.trans hpub)
  contradiction

end AetherStream.Cli
