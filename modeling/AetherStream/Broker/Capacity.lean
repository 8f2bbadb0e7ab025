import AetherStream.Broker.Accounting

/-! How many values an opened `PersistentBroker` can publish: the log is never emptied, so its
size decides, and the queue only says when. -/

namespace AetherStream.PersistentBroker
open Basis Wal
variable {cap : Capacity} {α : Type*} [TriviallyCopyable α]

def recordCapacity (α : Type*) [TriviallyCopyable α] (fileSize : UInt64) : Nat :=
  fileSize.toNat / (40 + (TriviallyCopyable.size α).toNat)

theorem lt_recordCapacity_iff {n : Nat} {fileSize : UInt64} :
    n < recordCapacity α fileSize ↔ (n + 1) * (40 + (TriviallyCopyable.size α).toNat) ≤ fileSize.toNat := by
  rw [recordCapacity, Nat.lt_iff_add_one_le, Nat.le_div_iff_mul_le (by omega)]

theorem validateWalConfig_of_openConfig {b b' : PersistentBroker cap α} {config : BrokerConfig} {calls : CreateCalls}
    (h : b.openConfig config calls = (.ok, b')) :
    (validateWalConfigForPayload config.wal (TriviallyCopyable.size α)).isOk = true := by
  have hstop {status : Status} {stopped : PersistentBroker cap α} (hbad : status.isOk = false) :
      (status, stopped) ≠ (.ok, b') := by
    intro heq
    rw [(Prod.mk.inj heq).1] at hbad
    contradiction
  unfold openConfig at h
  dsimp only at h
  split_ifs at h with hopen hqueue henable hpayload
  · exact absurd h (hstop rfl)
  · exact absurd h (hstop (by simpa using hqueue))
  · exact absurd h (hstop rfl)
  · exact absurd h (hstop (by simpa using hpayload))
  · simpa using hpayload

/-- All calls of `create` succeed, as `ftruncate` only does for a size that is an `off_t`. -/
structure CreateSucceeds (calls : CreateCalls) (size : UInt64) : Prop where
  openFd : calls.openFd.isSome = true
  ftruncateOk : calls.ftruncateOk = true
  offset : size.toNat < 2 ^ 63
  mmapAddr : calls.mmapAddr.isSome = true

theorem openWal_succeeds {config : WalConfig} {calls : CreateCalls}
    (hvalid : (validateWalConfigForPayload config (TriviallyCopyable.size α)).isOk = true)
    (hcalls : CreateSucceeds calls config.fileSizeBytes) :
    ∃ b : PersistentBroker cap α, ({} : PersistentBroker cap α).openWal config calls = (.ok, b) := by
  obtain ⟨fd, hfd⟩ := Option.isSome_iff_exists.mp hcalls.openFd
  obtain ⟨addr, haddr⟩ := Option.isSome_iff_exists.mp hcalls.mmapAddr
  obtain ⟨hconfig, hpath, hheader⟩ := walConfig_of_validate hvalid
  have hqueue : (validateQueueConfigForCapacity { capacity := cap.size } cap.size).isOk = true := by
    have hne : cap.size ≠ 0 := fun h => absurd cap.two_le (by rw [h]; decide)
    simp [validateQueueConfigForCapacity, QueueConfig.validate, isPowerOfTwo, hne, cap.pow_two]
  have hsize : config.fileSizeBytes ≠ 0 := fun h => absurd hheader (by rw [h]; decide)
  obtain ⟨file, hfile⟩ : ∃ file, MmapFile.create config.path config.fileSizeBytes {} calls = .ok file := by
    rw [MmapFile.create, if_neg hpath, if_neg hsize, hfd]
    dsimp only
    rw [dif_pos ⟨hcalls.ftruncateOk, hcalls.offset⟩, haddr]
    exact ⟨_, rfl⟩
  have hcreate : WalWriter.createConfig config calls =
      .ok { file := file, flushOnAppend := config.flushOnCommit } := by
    rw [WalWriter.createConfig, hconfig, if_neg (by decide), WalWriter.create, if_neg hpath, if_neg hheader,
      fitsSizeT_eq_true, if_neg (by decide), hfile]
  have hclosed : ({} : PersistentBroker cap α).writer.valid = false := rfl
  simp only [openWal, openConfig, hclosed, hqueue, hvalid, hcreate, Bool.not_true, Bool.false_eq_true, if_false]
  exact ⟨_, rfl⟩

structure Opened (b : PersistentBroker cap α) (config : BrokerConfig) : Prop where
  logs : b.Logs [] none
  accounts : b.Accounts []
  fileSize : b.writer.file.size = config.wal.fileSizeBytes
  payload : (TriviallyCopyable.size α).toNat < 2 ^ 32
  fits : 40 + (TriviallyCopyable.size α).toNat ≤ config.wal.fileSizeBytes.toNat

theorem opened (opens : List (BrokerConfig × CreateCalls)) {config : BrokerConfig} {createCalls : CreateCalls}
    {b : PersistentBroker cap α}
    (h : (openAll opens : PersistentBroker cap α).openConfig config createCalls = (.ok, b)) : b.Opened config := by
  obtain ⟨-, hpayload, hfits⟩ := validateWalConfigForPayload_isOk_iff.mp (validateWalConfig_of_openConfig h)
  have hall : (openAll (opens ++ [(config, createCalls)]) : PersistentBroker cap α) = b := by
    rw [openAll, List.foldl_append]
    exact congrArg Prod.snd h
  obtain ⟨status, hne, heq⟩ | ⟨writer, hcreate, heq⟩ :=
    openConfig_cases (openAll opens : PersistentBroker cap α) config createCalls
  · obtain ⟨rfl, -⟩ := Prod.mk.inj (heq.symm.trans h)
    contradiction
  obtain ⟨-, rfl⟩ := Prod.mk.inj (heq.symm.trans h)
  obtain ⟨hholds, hzeros⟩ := holds_createConfig hcreate
  have hbroker := (openable_openAll opens : (openAll opens : PersistentBroker cap α).Openable).broker
  refine ⟨⟨[], [], writer.rest, ⟨rfl, ?_, hholds⟩, by simp, hzeros, rfl, rfl, rfl⟩, ?_, ?_, hpayload, hfits⟩
  · rw [hbroker]
    rfl
  · rw [← hall]
    refine accounts_openAll ?_
    rw [hall]
    exact Bool.and_eq_true_iff.mpr ⟨rfl, hholds.valid⟩
  · unfold WalWriter.createConfig at hcreate
    split at hcreate; · contradiction
    exact WalWriter.size_create hcreate

theorem size_tryPublish (b : PersistentBroker cap α) (value : α) (flags : UInt32) (clock : UInt64) (msyncOk : Bool) :
    (b.tryPublish value flags clock msyncOk).2.writer.file.size = b.writer.file.size := by
  have hsize := b.writer.size_append (messageView value flags) clock msyncOk
  unfold tryPublish
  dsimp only
  split_ifs <;> first | rfl | exact hsize

theorem size_call (b : PersistentBroker cap α) (c : Call α) : (b.call c).2.writer.file.size = b.writer.file.size := by
  cases c with
  | tryPublish value flags clock msyncOk => exact b.size_tryPublish value flags clock msyncOk
  | tryConsume =>
    simp only [call, tryConsume]
    split_ifs <;> rfl
  | flush msyncOk =>
    simp only [call, flush]
    split_ifs <;> rfl

theorem size_run (b : PersistentBroker cap α) (calls : List (Call α)) :
    (b.run calls).2.writer.file.size = b.writer.file.size := by
  induction calls generalizing b with
  | nil => rfl
  | cons c cs ih => exact (ih _).trans (b.size_call c)

section Publish
variable {b : PersistentBroker cap α} {values : List α} {lost : Option α} (h : b.Logs values lost)
  (hpayload : (TriviallyCopyable.size α).toNat < 2 ^ 32) (value : α) (flags : UInt32) (clock : UInt64)
include h

theorem Logs.toNat_currentOffset :
    b.writer.currentOffset.toNat = values.length * (40 + (TriviallyCopyable.size α).toNat) := by
  obtain ⟨records, -, -, hserving, -, -, -, hvalues, -⟩ := h
  have hlength : records.length = values.length := by simpa using congrArg List.length hvalues
  have hpayloads : ∀ r ∈ records, r.payload.length = (TriviallyCopyable.size α).toNat := by
    intro r hr
    have hmem : r.payload ∈ values.map TriviallyCopyable.bytes := hvalues ▸ List.mem_map_of_mem hr
    obtain ⟨v, -, hv⟩ := List.mem_map.mp hmem
    rw [← hv, TriviallyCopyable.length_bytes]
  rw [hserving.writer.toNat_currentOffset hpayloads, hlength]

include hpayload

theorem Logs.checkAppend_eq : b.writer.checkAppend (messageView value flags) =
    if values.length < recordCapacity α b.writer.file.size then .ok
    else ⟨.outOfSpace, "wal file does not have enough remaining space"⟩ := by
  have hoffset := h.toNat_currentOffset
  obtain ⟨records, -, -, hserving, -⟩ := h
  have hm : (messageView value flags).header.payloadSize.toNat = (messageView value flags).payload.length := by
    simpa [messageView, TriviallyCopyable.length_bytes] using hpayload
  have hlength : (messageView value flags).payload.length = (TriviallyCopyable.size α).toNat :=
    TriviallyCopyable.length_bytes value
  have hspace : b.writer.remainingSpace < walRecordHeaderSize.toUInt64 + (messageView value flags).size ↔
      ¬ values.length < recordCapacity α b.writer.file.size := by
    have hsum := hserving.writer.offset_add_rest
    rw [MmapFile.length_bytes hserving.writer.valid, hoffset] at hsum
    rw [UInt64.lt_iff_toNat_lt, hserving.writer.toNat_remainingSpace, WalWriter.toNat_totalSize hm, hlength,
      lt_recordCapacity_iff, Nat.add_one_mul]
    omega
  rw [WalWriter.checkAppend_eq hm hserving.writer.valid]
  by_cases hroom : values.length < recordCapacity α b.writer.file.size
  · rw [if_pos hroom, if_neg (mt hspace.mp (not_not.mpr hroom))]
  · rw [if_neg hroom, if_pos (hspace.mpr hroom)]

variable (hfull : b.broker.isFull = false)
include hfull

theorem Logs.tryPublish_room (hroom : values.length < recordCapacity α b.writer.file.size) :
    (b.tryPublish value flags clock true).1 = .ok := by
  have hcheck := h.checkAppend_eq hpayload value flags
  obtain ⟨records, -, -, hserving, -⟩ := h
  have happend : (b.writer.append (messageView value flags) clock true).1 = .ok := by
    rw [WalWriter.append_eq hserving.writer, hcheck, if_pos hroom, Bool.not_true, Bool.and_false]
    rfl
  obtain ⟨hfull', -⟩ | ⟨-, hok, -⟩ | ⟨-, -, heq⟩ := tryPublish_cases hserving value flags clock true
  · rw [hfull] at hfull'
    contradiction
  · rw [happend] at hok
    contradiction
  · rw [heq]

theorem Logs.tryPublish_exhausted (hroom : ¬ values.length < recordCapacity α b.writer.file.size) :
    b.tryPublish value flags clock true = (⟨.outOfSpace, "wal file does not have enough remaining space"⟩,
      { b with counters := b.counters.recordWalFailure }) := by
  have hcheck := h.checkAppend_eq hpayload value flags
  obtain ⟨records, -, -, hserving, -⟩ := h
  have happend : b.writer.append (messageView value flags) clock true =
      (⟨.outOfSpace, "wal file does not have enough remaining space"⟩, b.writer) := by
    rw [WalWriter.append_eq hserving.writer, hcheck, if_neg hroom]
    rfl
  obtain ⟨hfull', -⟩ | ⟨-, -, heq⟩ | ⟨-, hok, -⟩ := tryPublish_cases hserving value flags clock true
  · rw [hfull] at hfull'
    contradiction
  · rw [heq, happend]
  · rw [happend] at hok
    contradiction

end Publish

theorem outcome_of_isOk {b : PersistentBroker cap α} {records : List Record} (h : b.Serving records) {value : α}
    {flags : UInt32} {clock : UInt64} {msyncOk : Bool} (hok : (b.tryPublish value flags clock msyncOk).1.isOk = true) :
    b.outcome (.tryPublish value flags clock msyncOk) = .published := by
  obtain ⟨-, heq⟩ | ⟨-, hbad, heq⟩ | ⟨hfull, happended, -⟩ := tryPublish_cases h value flags clock msyncOk
  · rw [heq] at hok
    contradiction
  · rw [heq, hbad] at hok
    contradiction
  · rw [outcome, hfull, happended]
    rfl

omit [TriviallyCopyable α] in
theorem tryConsume_of_contents {b : PersistentBroker cap α} {records : List Record} (h : b.Serving records)
    (hsettled : b.broker.queue.Settled) {v : Option α} {vs : List (Option α)}
    (hcontents : b.broker.queue.contents = v :: vs) :
    ∃ b' : PersistentBroker cap α, b.tryConsume = (.ok, v, b') ∧ b'.Serving records ∧ b'.broker.queue.Settled ∧
      b'.broker.queue.contents = vs := by
  obtain ⟨hempty, -⟩ | ⟨value, queue, hpop, hsettled', hpopped⟩ := hsettled.tryPop
  · rw [hempty] at hcontents
    contradiction
  · obtain ⟨rfl, rfl⟩ := List.cons.inj (hpopped.symm.trans hcontents)
    have hbroker : (!b.broker.valid) = false := by rw [h.broker]; rfl
    rw [tryConsume, h.valid, if_neg (by decide), Broker.tryConsume, hbroker, if_neg (by decide), hpop]
    exact ⟨_, rfl, ⟨h.openStatus, h.broker, h.writer⟩, hsettled', rfl⟩

theorem run_tryConsume {b : PersistentBroker cap α} {records : List Record} (h : b.Serving records)
    (hsettled : b.broker.queue.Settled) :
    (b.run (List.replicate b.broker.queue.contents.length .tryConsume)).1 =
      b.broker.queue.contents.map fun v => (.ok, v) := by
  generalize hcontents : b.broker.queue.contents = contents
  induction contents generalizing b with
  | nil => rfl
  | cons v vs ih =>
    obtain ⟨b', heq, hserving, hsettled', hrest⟩ := tryConsume_of_contents h hsettled hcontents
    rw [List.length_cons, List.replicate_succ, run, call, heq, List.map_cons]
    exact congrArg _ (ih hserving hsettled' hrest)

/-- A publish into a queue that is not full succeeds exactly as long as fewer than
`fileSizeBytes / (40 + sizeof(T))` have succeeded; after that nothing but the failure counter
changes, and what is queued can still be consumed. Earlier flushes may have failed. -/
theorem publishes_exactly_capacity (opens : List (BrokerConfig × CreateCalls)) (config : BrokerConfig)
    (createCalls : CreateCalls) {b₀ : PersistentBroker cap α}
    (hopen : (openAll opens : PersistentBroker cap α).openConfig config createCalls = (.ok, b₀))
    (calls : List (Call α)) (value : α) (flags : UInt32) (clock : UInt64) :
    let b := (b₀.run calls).2
    let succeeded := (published calls (b₀.run calls).1).length
    let capacity := config.wal.fileSizeBytes.toNat / (40 + (TriviallyCopyable.size α).toNat)
    let result := b.tryPublish value flags clock true
    (b.broker.isFull = false →
      (result.1 = .ok ↔ succeeded < capacity) ∧
      (¬ succeeded < capacity →
        result.1 = ⟨.outOfSpace, "wal file does not have enough remaining space"⟩ ∧
          result.2.broker = b.broker ∧ result.2.writer = b.writer)) ∧
      (b₀.tryPublish value flags clock true).1 = .ok ∧
      (result.2.run (List.replicate result.2.broker.queue.contents.length .tryConsume)).1 =
        result.2.broker.queue.contents.map fun v => (.ok, v) := by
  intro b succeeded capacity result
  have hopened := opened opens hopen
  have hlogs : b.Logs (published calls (b₀.run calls).1) _ := hopened.logs.run calls
  have hcapacity : recordCapacity α b.writer.file.size = capacity := by
    rw [b₀.size_run calls, hopened.fileSize]
    rfl
  have hcapacity₀ : recordCapacity α b₀.writer.file.size = capacity := by
    rw [hopened.fileSize]
    rfl
  refine ⟨fun hfull => ?_, ?_, ?_⟩
  · by_cases hroom : succeeded < capacity
    · have hok : result.1 = .ok := hlogs.tryPublish_room hopened.payload value flags clock hfull (hcapacity ▸ hroom)
      exact ⟨iff_of_true hok hroom, fun h => absurd hroom h⟩
    · have hfailed : result = _ :=
        hlogs.tryPublish_exhausted hopened.payload value flags clock hfull (hcapacity ▸ hroom)
      have hne : (⟨.outOfSpace, "wal file does not have enough remaining space"⟩ : Status) ≠ .ok := by decide
      rw [hfailed]
      exact ⟨iff_of_false hne hroom, fun _ => ⟨rfl, rfl, rfl⟩⟩
  · have hpos : 0 < capacity := Nat.div_pos hopened.fits (by omega)
    have hnotFull : b₀.broker.isFull = false := by
      have htwo := cap.two_le_toNat
      rw [← Bool.not_eq_true, hopened.accounts.isFull_iff, List.count_nil, List.count_nil]
      omega
    exact hopened.logs.tryPublish_room hopened.payload value flags clock hnotFull (hcapacity₀ ▸ hpos)
  · have haccounts := (hopened.accounts.run calls).tryPublish value flags clock true
    obtain ⟨records, hserving, -⟩ := haccounts.log
    obtain ⟨accepted, hrests, -⟩ := haccounts.queue
    exact run_tryConsume hserving ⟨_, _, hrests⟩

theorem publishes_exactly_capacity_smallConfig :
    ∃ b₀ : PersistentBroker .least UInt8,
      (openAll []).openConfig smallConfig ⟨some 3, true, some 4096⟩ = (.ok, b₀) ∧
      ((b₀.run [.tryPublish 7 0 5 true, .tryPublish 8 0 6 true, .tryConsume]).2.tryPublish 9 0 7 true).1 =
        ⟨.outOfSpace, "wal file does not have enough remaining space"⟩ := by
  refine ⟨_, rfl, ?_⟩
  have hopen :
      (openAll [] : PersistentBroker .least UInt8).openConfig smallConfig ⟨some 3, true, some 4096⟩ = (.ok, _) := rfl
  have hcapacity := publishes_exactly_capacity [] smallConfig ⟨some 3, true, some 4096⟩ hopen
    [.tryPublish 7 0 5 true, .tryPublish 8 0 6 true, .tryConsume] 9 0 7
  exact ((hcapacity.1 (by decide +kernel)).2 (by decide +kernel)).1

end AetherStream.PersistentBroker
