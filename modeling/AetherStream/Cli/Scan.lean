import AetherStream.Broker.Broker
import AetherStream.Cli.Options
import AetherStream.Wal.Session

/-! `aether_inspect_wal` and `aether_replay`: the scan of a log that the two tools share, up to
a limit, and what they report. -/

namespace AetherStream.Cli
open Basis Wal

structure Scan (σ : Type*) where
  reader : WalReader
  counters : BrokerCounters := {}
  count : UInt64 := 0
  state : σ

section ScanLoop
variable {σ : Type*} (limit : UInt64) (process : UInt64 → σ → WalRecordView → σ)

def Scan.visit (s : Scan σ) (view : WalRecordView) (reader : WalReader) : Scan σ where
  reader := reader
  counters := s.counters.recordRecoveredRecord
  count := s.count + 1
  state := process s.count s.state view

/-- The `while` loop of either tool, cut after `fuel` iterations: the status of the error it
left the tool with, if it did. -/
def scanLoop : Nat → Scan σ → Option (Option Status × Scan σ)
  | 0, _ => none
  | fuel + 1, s =>
    if limit = 0 ∨ s.count < limit then
      match s.reader.next with
      | (.ok view, reader) => scanLoop fuel (s.visit process view reader)
      | (.error status, reader) =>
        if status.code = .empty then some (none, { s with reader := reader })
        else some (some status, { s with reader := reader, counters := s.counters.recordRecoveryFailure })
    else some (none, s)

end ScanLoop

def formatLine : String :=
  "WAL format: magic=0x" ++ String.ofList (Nat.toDigits 16 walRecordMagic.toNat) ++ " version=" ++
    toString walFormatVersion ++ " header_size=" ++ toString walRecordHeaderSize ++ "\n"

def inspectLine (view : WalRecordView) : String :=
  "record offset=" ++ toString view.offset ++ " sequence=" ++ toString view.header.sequence ++ " payload_size=" ++
    toString view.header.payloadSize ++ " timestamp_ns=" ++ toString view.header.timestampNs ++ " flags=" ++
    toString view.header.flags ++ " checksum=" ++ toString view.header.checksum ++ "\n"

structure InspectTotals where
  totalPayload : UInt64 := 0
  firstSequence : UInt64 := 0xFFFFFFFFFFFFFFFF
  lastSequence : UInt64 := 0
  out : List String := []

def inspectRecord (verbose : Bool) (count : UInt64) (t : InspectTotals) (view : WalRecordView) : InspectTotals where
  totalPayload := t.totalPayload + view.header.payloadSize.toUInt64
  firstSequence := if count = 0 then view.header.sequence else t.firstSequence
  lastSequence := view.header.sequence
  out := if verbose then t.out ++ [inspectLine view] else t.out

structure InspectReport where
  count : UInt64
  totalPayload : UInt64
  firstSequence : UInt64
  lastSequence : UInt64
  finalOffset : UInt64
  recoveredRecords : UInt64
  recoveryFailures : UInt64

def InspectReport.lines (report : InspectReport) : List String :=
  ["record count: " ++ toString report.count ++ "\n",
    "total payload bytes: " ++ toString report.totalPayload ++ "\n",
    "first sequence: " ++ toString report.firstSequence ++ "\n",
    "last sequence: " ++ toString report.lastSequence ++ "\n",
    "final reader offset: " ++ toString report.finalOffset ++ "\n",
    "scan ended cleanly: yes\n",
    "metrics.recovered_records: " ++ toString report.recoveredRecords ++ "\n",
    "metrics.recovery_failures: " ++ toString report.recoveryFailures ++ "\n"]

def inspectWal (parsed : Expected InspectWalOptions) (content : FileContent) (calls : OpenCalls) (fuel : Nat) :
    Option Exit :=
  match parsed with
  | .error status => some { status := 2, err := [printError status] }
  | .ok options =>
    if options.help then some { status := 0, out := [inspectWalHelp] }
    else match WalReader.openPath options.walPath content calls with
      | .error status => some { status := 1, out := [formatLine], err := [printError status] }
      | .ok reader =>
        match scanLoop options.limit (inspectRecord options.verbose) fuel { reader := reader, state := {} } with
        | none => none
        | some (some status, s) => some
            { status := 1
              out := formatLine :: s.state.out ++
                ["scan ended with corruption/error at offset " ++ toString s.reader.currentOffset ++ "\n"]
              err := [printError status] }
        | some (none, s) =>
          let report : InspectReport :=
            { count := s.count
              totalPayload := s.state.totalPayload
              firstSequence := if s.count = 0 then 0 else s.state.firstSequence
              lastSequence := if s.count = 0 then 0 else s.state.lastSequence
              finalOffset := s.reader.currentOffset
              recoveredRecords := s.counters.recoveredRecords
              recoveryFailures := s.counters.recoveryFailures }
          some { status := 0, out := formatLine :: s.state.out ++ report.lines }

def isPrint (byte : UInt8) : Bool := 0x20 ≤ byte && byte ≤ 0x7E

def preview (payload : List UInt8) (limit : UInt64) : String :=
  String.ofList ((payload.take limit.toNat).map fun byte => if isPrint byte then Char.ofNat byte.toNat else '.')

def replayLine (payloadPreviewBytes : UInt64) (view : WalRecordView) : String :=
  "offset=" ++ toString view.offset ++ " sequence=" ++ toString view.header.sequence ++ " timestamp_ns=" ++
    toString view.header.timestampNs ++ " payload_size=" ++ toString view.header.payloadSize ++ " flags=" ++
    toString view.header.flags ++ " checksum=" ++ toString view.header.checksum ++ " preview=\"" ++
    preview view.payload payloadPreviewBytes ++ "\"\n"

def replayRecord (payloadPreviewBytes : UInt64) (_ : UInt64) (out : List String) (view : WalRecordView) :
    List String :=
  out ++ [replayLine payloadPreviewBytes view]

structure ReplayReport where
  records : UInt64
  finalOffset : UInt64
  recoveredRecords : UInt64
  recoveryFailures : UInt64

def ReplayReport.lines (report : ReplayReport) : List String :=
  ["summary: records replayed=" ++ toString report.records ++ " final offset=" ++ toString report.finalOffset ++ "\n",
    "metrics.recovered_records: " ++ toString report.recoveredRecords ++ "\n",
    "metrics.recovery_failures: " ++ toString report.recoveryFailures ++ "\n"]

def replayTool (parsed : Expected ReplayOptions) (content : FileContent) (calls : OpenCalls) (fuel : Nat) :
    Option Exit :=
  match parsed with
  | .error status => some { status := 2, err := [printError status] }
  | .ok options =>
    if options.help then some { status := 0, out := [replayHelp] }
    else match WalReader.openPath options.walPath content calls with
      | .error status => some { status := 1, err := [printError status] }
      | .ok reader =>
        match scanLoop options.limit (replayRecord options.payloadPreviewBytes) fuel
            { reader := reader, state := [] } with
        | none => none
        | some (some status, s) => some { status := 1, out := s.state, err := [printError status] }
        | some (none, s) =>
          let report : ReplayReport :=
            { records := s.count
              finalOffset := s.reader.currentOffset
              recoveredRecords := s.counters.recoveredRecords
              recoveryFailures := s.counters.recoveryFailures }
          some { status := 0, out := s.state ++ report.lines }

section Ahead
variable {σ : Type*} {limit : UInt64} {process : UInt64 → σ → WalRecordView → σ} {s : Scan σ} {records : List Record}
  {tail : List UInt8}

variable (process) in
def Scan.take (s : Scan σ) (record : Record) : Scan σ :=
  s.visit process ⟨record.header, record.payload, s.reader.currentOffset⟩ (s.reader.advance record)

def quota (limit : UInt64) (count n : Nat) : Nat := if limit = 0 then n else min (limit.toNat - count) n

def Fails (limit : UInt64) (n : Nat) (ending : Status) : Prop :=
  ending.isOk = false ∧ (limit = 0 ∨ n < limit.toNat)

instance (limit : UInt64) (n : Nat) (ending : Status) : Decidable (Fails limit n ending) := by
  unfold Fails; infer_instance

theorem quota_succ {count n : Nat} (h : limit = 0 ∨ count < limit.toNat) :
    quota limit count (n + 1) = quota limit (count + 1) n + 1 := by
  unfold quota
  split_ifs
  · rfl
  · have := h.resolve_left ‹_›
    omega

theorem quota_full {count n : Nat} (h : ¬ (limit = 0 ∨ count < limit.toNat)) : quota limit count n = 0 := by
  unfold quota
  split_ifs
  · exact absurd (Or.inl ‹_›) h
  · omega

variable (limit process) in
theorem scanLoop_eq (h : s.reader.Ahead records tail) (hcount : s.count.toNat + records.length < 2 ^ 64) {fuel : Nat}
    (hfuel : records.length < fuel) :
    scanLoop limit process fuel s =
      let final := (records.take (quota limit s.count.toNat records.length)).foldl (Scan.take process) s
      let ending := (records.foldl WalReader.advance s.reader).endStatus
      if Fails limit (s.count.toNat + records.length) ending then
        some (some ending, { final with counters := final.counters.recordRecoveryFailure })
      else some (none, final) := by
  induction records generalizing s fuel with
  | nil =>
    have hlt : (limit = 0 ∨ s.count < limit) ↔ (limit = 0 ∨ s.count.toNat < limit.toNat) :=
      or_congr_right UInt64.lt_iff_toNat_lt
    obtain ⟨status, hnext, hcode⟩ := h.next_nil
    obtain ⟨fuel, rfl⟩ := Nat.exists_eq_add_one_of_ne_zero (Nat.ne_of_gt hfuel)
    rw [scanLoop, hnext]
    by_cases hroom : limit = 0 ∨ s.count.toNat < limit.toNat
    · rw [if_pos (hlt.mpr hroom)]
      rcases hcode with ⟨hc, -⟩ | ⟨hc, -⟩
      · simp [Fails, WalReader.endStatus, hnext, hc]
      · have hbad : status.isOk = false := by simp [Status.isOk, hc]
        simp [Fails, WalReader.endStatus, hnext, hc, hbad, hroom]
    · have hnot (ending : Status) : ¬ Fails limit s.count.toNat ending := fun hfails => hroom hfails.2
      rw [if_neg (mt hlt.mp hroom)]
      simp [hnot]
  | cons record records ih =>
    have hlt : (limit = 0 ∨ s.count < limit) ↔ (limit = 0 ∨ s.count.toNat < limit.toNat) :=
      or_congr_right UInt64.lt_iff_toNat_lt
    obtain ⟨hnext, hahead⟩ := h.next_cons
    obtain ⟨fuel, rfl⟩ := Nat.exists_eq_add_one_of_ne_zero (Nat.ne_of_gt (Nat.zero_lt_of_lt hfuel))
    rw [List.length_cons] at hcount hfuel
    rw [scanLoop, hnext, List.length_cons]
    by_cases hroom : limit = 0 ∨ s.count.toNat < limit.toNat
    · have htake : (s.take process record).count.toNat = s.count.toNat + 1 := by
        show (s.count + 1).toNat = _
        rw [UInt64.toNat_add]
        exact Nat.mod_eq_of_lt (by simp; omega)
      have hfuel' : records.length < fuel := by omega
      have hloop := ih (s := s.take process record) hahead (by omega) hfuel'
      rw [htake] at hloop
      rw [if_pos (hlt.mpr hroom), quota_succ hroom, List.take_succ_cons]
      rw [Nat.add_right_comm, Nat.add_assoc] at hloop
      exact hloop
    · have hnot (ending : Status) : ¬ Fails limit (s.count.toNat + (records.length + 1)) ending := by
        rintro ⟨-, hfails⟩
        exact hroom (hfails.imp_right fun hlong => by omega)
      rw [if_neg (mt hlt.mp hroom), quota_full hroom]
      simp [hnot]

variable (process) in
def processAll : UInt64 → σ → List WalRecordView → σ
  | _, state, [] => state
  | count, state, view :: views => processAll (count + 1) (process count state view) views

theorem foldl_take (s : Scan σ) (records : List Record) :
    records.foldl (Scan.take process) s =
      { reader := records.foldl WalReader.advance s.reader
        counters := s.counters.recover records.length 0
        count := s.count + UInt64.ofNat records.length
        state := processAll process s.count s.state (viewsFrom s.reader.currentOffset records) } := by
  induction records generalizing s with
  | nil => simp [viewsFrom, processAll, BrokerCounters.recover_zero]
  | cons record records ih =>
    rw [List.foldl_cons, ih]
    simp only [Scan.take, Scan.visit, BrokerCounters.recover_recordRecoveredRecord, List.length_cons, viewsFrom,
      processAll, List.foldl_cons, ← ModularCounter.ofNat_succ]
    rw [UInt64.add_assoc, UInt64.add_comm 1]
    rfl

variable (limit process) in
theorem scanLoop_fresh {r : WalReader} (h : r.Ahead records tail) (state : σ) {fuel : Nat}
    (hfuel : records.length < fuel) :
    scanLoop limit process fuel { reader := r, state := state } =
      let taken := records.take (quota limit 0 records.length)
      let final : Scan σ :=
        { reader := taken.foldl WalReader.advance r
          counters := BrokerCounters.recover {} taken.length 0
          count := UInt64.ofNat taken.length
          state := processAll process 0 state (viewsFrom r.currentOffset taken) }
      let ending := (records.foldl WalReader.advance r).endStatus
      if Fails limit records.length ending then
        some (some ending, { final with counters := final.counters.recordRecoveryFailure })
      else some (none, final) := by
  have hle := h.length_le
  have hrest := r.length_rest_le
  have hlt := r.file.length_bytes_lt
  have hloop := scanLoop_eq limit process (s := { reader := r, state := state }) h (by simp; omega) hfuel
  simp only [foldl_take, UInt64.zero_add, UInt64.toNat_zero, Nat.zero_add] at hloop
  exact hloop

end Ahead

theorem processAll_replayRecord (payloadPreviewBytes count : UInt64) (out : List String) (views : List WalRecordView) :
    processAll (replayRecord payloadPreviewBytes) count out views =
      out ++ views.map (replayLine payloadPreviewBytes) := by
  induction views generalizing count out with
  | nil => simp [processAll]
  | cons view views ih => rw [processAll, ih, replayRecord, List.append_assoc, List.map_cons, List.singleton_append]

def payloadBytes (views : List WalRecordView) : Nat := (views.map fun view => view.header.payloadSize.toNat).sum

theorem payloadBytes_cons (view : WalRecordView) (views : List WalRecordView) :
    payloadBytes (view :: views) = view.header.payloadSize.toNat + payloadBytes views := by
  simp [payloadBytes]

section Inspect
variable (verbose : Bool)

theorem out_processAll (count : UInt64) (t : InspectTotals) (views : List WalRecordView) :
    (processAll (inspectRecord verbose) count t views).out =
      t.out ++ if verbose then views.map inspectLine else [] := by
  induction views generalizing count t with
  | nil => cases verbose <;> simp [processAll]
  | cons view views ih =>
    rw [processAll, ih]
    cases verbose <;> simp [inspectRecord]

theorem totalPayload_processAll (count : UInt64) (t : InspectTotals) (views : List WalRecordView) :
    (processAll (inspectRecord verbose) count t views).totalPayload =
      t.totalPayload + UInt64.ofNat (payloadBytes views) := by
  induction views generalizing count t with
  | nil => simp [processAll, payloadBytes]
  | cons view views ih =>
    rw [processAll, ih, payloadBytes_cons, UInt64.ofNat_add, ← UInt64.add_assoc, UInt64.ofNat_uInt32ToNat]
    rfl

theorem lastSequence_processAll (count : UInt64) (t : InspectTotals) (views : List WalRecordView) :
    (processAll (inspectRecord verbose) count t views).lastSequence =
      (views.getLast?.map fun view => view.header.sequence).getD t.lastSequence := by
  induction views generalizing count t with
  | nil => rfl
  | cons view views ih =>
    rw [processAll, ih, List.getLast?_cons]
    cases views.getLast? <;> rfl

theorem firstSequence_processAll {count : UInt64} (hcount : count ≠ 0) (t : InspectTotals)
    {views : List WalRecordView} (hlt : count.toNat + views.length < 2 ^ 64) :
    (processAll (inspectRecord verbose) count t views).firstSequence = t.firstSequence := by
  induction views generalizing count t with
  | nil => rfl
  | cons view views ih =>
    rw [List.length_cons] at hlt
    have hnext : (count + 1).toNat = count.toNat + 1 := by
      rw [UInt64.toNat_add]
      exact Nat.mod_eq_of_lt (by simp; omega)
    have hne : count + 1 ≠ 0 := by
      intro hzero
      rw [hzero] at hnext
      simp at hnext
    rw [processAll, ih hne _ (by omega), inspectRecord, if_neg hcount]

theorem ofNat_length_eq_zero_iff {views : List WalRecordView} (hlt : views.length < 2 ^ 64) :
    UInt64.ofNat views.length = 0 ↔ views = [] := by
  rw [← UInt64.toNat_inj, UInt64.toNat_ofNat_of_lt' hlt, UInt64.toNat_zero, List.length_eq_zero_iff]

theorem reported_firstSequence {views : List WalRecordView} (hlt : views.length < 2 ^ 64) :
    (if UInt64.ofNat views.length = 0 then 0 else (processAll (inspectRecord verbose) 0 {} views).firstSequence) =
      (views.head?.map fun view => view.header.sequence).getD 0 := by
  cases views with
  | nil => rfl
  | cons view views =>
    rw [if_neg (mt (ofNat_length_eq_zero_iff hlt).mp (List.cons_ne_nil view views)), processAll,
      firstSequence_processAll verbose (by decide) _ (by simpa [Nat.add_comm] using hlt)]
    rfl

theorem reported_lastSequence {views : List WalRecordView} (hlt : views.length < 2 ^ 64) :
    (if UInt64.ofNat views.length = 0 then 0 else (processAll (inspectRecord verbose) 0 {} views).lastSequence) =
      (views.getLast?.map fun view => view.header.sequence).getD 0 := by
  rw [lastSequence_processAll]
  split_ifs with hzero
  · rw [(ofNat_length_eq_zero_iff hlt).mp hzero]
    rfl
  · rfl

end Inspect

theorem Tiles.stop_eq {start stop : Nat} {views : List WalRecordView} (h : WalReader.Tiles start views stop) :
    stop = start + (40 * views.length + payloadBytes views) := by
  induction h with
  | nil => simp [payloadBytes]
  | cons _ _ ih =>
    rw [ih, payloadBytes_cons, List.length_cons]
    omega

theorem taken_eq {r : WalReader} (hfresh : r.Fresh) {records taken : List Record} {tail : List UInt8}
    (hahead : r.Ahead records tail) {limit : UInt64} (htaken : records.take (quota limit 0 records.length) = taken)
    {processed : List WalRecordView} (hprocessed : processed =
      if limit = 0 then viewsFrom r.currentOffset records else (viewsFrom r.currentOffset records).take limit.toNat) :
    viewsFrom r.currentOffset taken = processed ∧ taken.length = processed.length ∧
      (taken.foldl WalReader.advance r).currentOffset.toNat = 40 * processed.length + payloadBytes processed := by
  have hviews : viewsFrom r.currentOffset taken = processed := by
    rw [hprocessed, ← htaken, WalReader.viewsFrom_take]
    unfold quota
    split_ifs
    · rw [← length_viewsFrom r.currentOffset, List.take_length]
    · rw [Nat.sub_zero, ← length_viewsFrom r.currentOffset, ← List.take_eq_take_min]
  have hsplit : r.Ahead (taken ++ records.drop (quota limit 0 records.length)) tail := by
    rwa [← htaken, List.take_append_drop]
  have htiles := hsplit.tiles
  rw [hviews, hfresh.currentOffset, UInt64.toNat_zero] at htiles
  refine ⟨hviews, ?_, ?_⟩
  · rw [← hviews, length_viewsFrom]
  · rw [Tiles.stop_eq htiles, Nat.zero_add]

/-- Both tools process the records of replay up to the limit. They fail exactly if replay
would and the limit lets them see it, and otherwise report the same count and offset. -/
theorem tools_agree_with_replay {path : String} {content : FileContent} {calls : OpenCalls} {r : WalReader}
    (hopen : WalReader.openPath path content calls = .ok r) (limit : UInt64) (verbose : Bool)
    (payloadPreviewBytes : UInt64) :
    ∃ fuel₀ replayStatus views, r.Replays replayStatus views ∧
      let processed := if limit = 0 then views else views.take limit.toNat
      let count := UInt64.ofNat processed.length
      let totalPayload := UInt64.ofNat (payloadBytes processed)
      ∃ finalOffset : UInt64,
        count.toNat = processed.length ∧ totalPayload.toNat = payloadBytes processed ∧
        finalOffset.toNat = 40 * count.toNat + totalPayload.toNat ∧
        ∀ fuel, fuel₀ ≤ fuel →
          inspectWal (.ok { walPath := path, limit := limit, verbose := verbose }) content calls fuel = some
            (if Fails limit views.length replayStatus then
              { status := 1
                out := formatLine :: (if verbose then processed.map inspectLine else []) ++
                  ["scan ended with corruption/error at offset " ++ toString finalOffset ++ "\n"]
                err := [printError replayStatus] }
            else
              { status := 0
                out := formatLine :: (if verbose then processed.map inspectLine else []) ++ InspectReport.lines
                  { count := count
                    totalPayload := totalPayload
                    firstSequence := (processed.head?.map fun view => view.header.sequence).getD 0
                    lastSequence := (processed.getLast?.map fun view => view.header.sequence).getD 0
                    finalOffset := finalOffset
                    recoveredRecords := count
                    recoveryFailures := 0 } }) ∧
          replayTool (.ok { walPath := path, limit := limit, payloadPreviewBytes := payloadPreviewBytes }) content
              calls fuel = some
            (if Fails limit views.length replayStatus then
              { status := 1
                out := processed.map (replayLine payloadPreviewBytes)
                err := [printError replayStatus] }
            else
              { status := 0
                out := processed.map (replayLine payloadPreviewBytes) ++ ReplayReport.lines
                  { records := count
                    finalOffset := finalOffset
                    recoveredRecords := count
                    recoveryFailures := 0 } }) := by
  have hfresh := WalReader.fresh_of_openPath hopen
  obtain ⟨records, tail, hahead⟩ := hfresh.ready.exists_ahead
  refine ⟨records.length + 1, _, _, hahead.replays, ?_⟩
  intro processed count totalPayload
  generalize htaken : records.take (quota limit 0 records.length) = taken
  obtain ⟨hprocessed, hlength, hoffset⟩ := taken_eq hfresh hahead htaken (show processed = _ from rfl)
  have hbound := UInt64.toNat_lt (taken.foldl WalReader.advance r).currentOffset
  have hcount : count.toNat = processed.length := UInt64.toNat_ofNat_of_lt' (show _ < 2 ^ 64 by omega)
  have htotal : totalPayload.toNat = payloadBytes processed :=
    UInt64.toNat_ofNat_of_lt' (show _ < 2 ^ 64 by omega)
  have hmetrics : BrokerCounters.recover {} processed.length 0 = { recoveredRecords := count } := by
    simp [BrokerCounters.recover, count]
  refine ⟨(taken.foldl WalReader.advance r).currentOffset, hcount, htotal, by rw [hcount, htotal, hoffset],
    fun fuel hfuel => ⟨?_, ?_⟩⟩
  · have hscan := scanLoop_fresh limit (inspectRecord verbose) hahead {} hfuel
    dsimp only at hscan
    rw [htaken, hprocessed, hlength, hmetrics] at hscan
    rw [inspectWal, if_neg Bool.false_ne_true, hopen]
    dsimp only
    rw [hscan, length_viewsFrom]
    by_cases hfails : Fails limit records.length (records.foldl WalReader.advance r).endStatus
    · rw [if_pos hfails, if_pos hfails]
      simp only [out_processAll, List.nil_append]
    · rw [if_neg hfails, if_neg hfails]
      simp only [out_processAll, List.nil_append, totalPayload_processAll, UInt64.zero_add,
        reported_firstSequence verbose (hcount ▸ count.toNat_lt),
        reported_lastSequence verbose (hcount ▸ count.toNat_lt)]
      rfl
  · have hscan := scanLoop_fresh limit (replayRecord payloadPreviewBytes) hahead [] hfuel
    dsimp only at hscan
    rw [htaken, hprocessed, hlength, hmetrics] at hscan
    rw [replayTool, if_neg Bool.false_ne_true, hopen]
    dsimp only
    rw [hscan, length_viewsFrom, processAll_replayRecord, List.nil_append]
    by_cases hfails : Fails limit records.length (records.foldl WalReader.advance r).endStatus
    · rw [if_pos hfails, if_pos hfails]
    · rw [if_neg hfails, if_neg hfails]

theorem tools_agree_with_replay_sampleRecord :
    let content : FileContent := ⟨WalReader.sampleRecord.encode ++ [0], by decide⟩
    let calls : OpenCalls := ⟨some 3, true, some 4096⟩
    ∃ fuel,
      inspectWal (.ok { walPath := "aether.wal", limit := 1 }) content calls fuel = some
        { status := 0
          out := formatLine :: InspectReport.lines
            { count := 1, totalPayload := 1, firstSequence := 0, lastSequence := 0, finalOffset := 41,
              recoveredRecords := 1, recoveryFailures := 0 } } ∧
      replayTool (.ok { walPath := "aether.wal", limit := 1, payloadPreviewBytes := 32 }) content calls fuel = some
        { status := 0
          out := replayLine 32 ⟨WalReader.sampleRecord.header, [7], 0⟩ :: ReplayReport.lines
            { records := 1, finalOffset := 41, recoveredRecords := 1, recoveryFailures := 0 } } := by
  intro content calls
  obtain ⟨r, hopen, hone⟩ : ∃ r, WalReader.openPath "aether.wal" content calls = .ok r ∧
      r.Replays .ok [⟨WalReader.sampleRecord.header, [7], 0⟩] :=
    ⟨_, rfl, WalReader.replays_of_replayLoop 2 (by decide +kernel)⟩
  obtain ⟨fuel, status, views, hreplays, offset, -, -, hoffset, h⟩ := tools_agree_with_replay hopen 1 false 32
  obtain ⟨rfl, rfl⟩ := hone.unique hreplays
  obtain rfl : offset = 41 := UInt64.toNat_inj.mp hoffset
  exact ⟨fuel, h fuel le_rfl⟩

end AetherStream.Cli
