import AetherStream.Broker.PersistentBroker

/-! What recovery reads back after a run of calls on an opened broker, and what a second
`open` does to a running one. -/

namespace AetherStream.PersistentBroker
open Basis Wal
variable {cap : Capacity} {α : Type*} [TriviallyCopyable α]

structure Serving (b : PersistentBroker cap α) (records : List Record) : Prop where
  openStatus : b.openStatus = .ok
  broker : b.broker.valid = true
  writer : b.writer.Holds records

omit [TriviallyCopyable α] in
theorem Serving.valid {b : PersistentBroker cap α} {records : List Record} (h : b.Serving records) :
    b.valid = true := by
  rw [PersistentBroker.valid, h.openStatus, h.writer.valid]
  rfl

theorem openConfig_cases (b : PersistentBroker cap α) (config : BrokerConfig) (calls : CreateCalls) :
    (∃ status : Status, status.isOk = false ∧ b.openConfig config calls = (status, { b with openStatus := status })) ∨
      ∃ writer, WalWriter.createConfig config.wal calls = .ok writer ∧
        b.openConfig config calls = (.ok, { b with writer := writer, openStatus := .ok }) := by
  unfold openConfig
  dsimp only
  split_ifs with h1 h2 h3 h4
  · exact Or.inl ⟨_, rfl, rfl⟩
  · exact Or.inl ⟨_, by simpa using h2, rfl⟩
  · exact Or.inl ⟨_, rfl, rfl⟩
  · exact Or.inl ⟨_, by simpa using h4, rfl⟩
  · split
    case h_1 status hcreate => exact Or.inl ⟨_, WalWriter.isOk_of_createConfig hcreate, rfl⟩
    case h_2 writer hcreate => exact Or.inr ⟨writer, hcreate, rfl⟩

theorem holds_createConfig {config : WalConfig} {calls : CreateCalls} {writer : WalWriter}
    (h : WalWriter.createConfig config calls = .ok writer) : writer.Holds [] ∧ ∀ x ∈ writer.rest, x = 0 := by
  unfold WalWriter.createConfig at h
  split at h; · contradiction
  obtain ⟨hholds, hrest, -⟩ := WalWriter.holds_create h
  exact ⟨hholds, by rw [hrest]; simp⟩

theorem serving_openConfig {config : BrokerConfig} {calls : CreateCalls} {b : PersistentBroker cap α}
    (h : ({} : PersistentBroker cap α).openConfig config calls = (.ok, b)) :
    b.Serving [] ∧ b.broker = {} ∧ ∀ x ∈ b.writer.rest, x = 0 := by
  rcases openConfig_cases ({} : PersistentBroker cap α) config calls with
    ⟨status, hne, heq⟩ | ⟨writer, hcreate, heq⟩
  · obtain ⟨rfl, -⟩ := Prod.mk.inj (heq.symm.trans h)
    contradiction
  · obtain ⟨-, rfl⟩ := Prod.mk.inj (heq.symm.trans h)
    obtain ⟨hholds, hzeros⟩ := holds_createConfig hcreate
    exact ⟨⟨rfl, rfl, hholds⟩, rfl, hzeros⟩

def openAll (opens : List (BrokerConfig × CreateCalls)) : PersistentBroker cap α :=
  opens.foldl (fun b call => (b.openConfig call.1 call.2).2) {}

omit [TriviallyCopyable α] in
structure Openable (b : PersistentBroker cap α) : Prop where
  broker : b.broker = {}
  openStatus : b.openStatus.isOk = true → b.openStatus = .ok
  writer : b.writer.valid = true → b.writer.Holds []

theorem openable_openAll (opens : List (BrokerConfig × CreateCalls)) :
    (openAll opens : PersistentBroker cap α).Openable := by
  refine List.foldlRecOn (motive := Openable) opens _ ⟨rfl, fun h => by contradiction, fun h => by contradiction⟩ ?_
  rintro b ⟨hbroker, hstatus, hwriter⟩ call -
  rcases openConfig_cases b call.1 call.2 with ⟨status, hne, heq⟩ | ⟨writer, hcreate, heq⟩
  · rw [heq]
    exact ⟨hbroker, fun hok => absurd hok (by simp [hne]), hwriter⟩
  · rw [heq]
    exact ⟨hbroker, fun _ => rfl, fun _ => (holds_createConfig hcreate).1⟩

omit [TriviallyCopyable α] in
theorem Openable.serving {b : PersistentBroker cap α} (h : b.Openable) (hvalid : b.valid = true) : b.Serving [] := by
  obtain ⟨hopen, hwriter⟩ := Bool.and_eq_true_iff.mp hvalid
  exact ⟨h.openStatus hopen, by rw [h.broker]; rfl, h.writer hwriter⟩

theorem tryPublish_cases {b : PersistentBroker cap α} {records : List Record} (h : b.Serving records)
    (value : α) (flags : UInt32) (clock : UInt64) (msyncOk : Bool) :
    let appended := b.writer.append (messageView value flags) clock msyncOk
    b.broker.isFull = true ∧ b.tryPublish value flags clock msyncOk =
        (⟨.full, "broker queue is full"⟩, { b with counters := b.counters.recordPublishFailedFull }) ∨
      b.broker.isFull = false ∧ appended.1.isOk = false ∧ b.tryPublish value flags clock msyncOk =
        (appended.1, { b with writer := appended.2, counters := b.counters.recordWalFailure }) ∨
      b.broker.isFull = false ∧ appended.1.isOk = true ∧ b.tryPublish value flags clock msyncOk =
        (.ok, { b with
          writer := appended.2
          broker := (b.broker.tryPublish value).2
          counters := (b.counters.recordWalWrite (if b.writer.currentOffset ≤ appended.2.currentOffset then
            appended.2.currentOffset - b.writer.currentOffset else 0)).recordPublished }) := by
  dsimp only
  rw [tryPublish, h.valid, if_neg (by decide)]
  generalize b.writer.append (messageView value flags) clock msyncOk = appended
  obtain ⟨status, writer⟩ := appended
  cases hfull : b.broker.isFull with
  | true => exact Or.inl ⟨rfl, rfl⟩
  | false =>
    refine Or.inr ?_
    dsimp only
    cases hok : status.isOk with
    | false => exact Or.inl ⟨rfl, rfl, rfl⟩
    | true =>
      -- a full queue was noticed before the append, so the push behind it succeeds
      rw [Broker.tryPublish_of_not_full h.broker hfull]
      exact Or.inr ⟨rfl, rfl, rfl⟩

theorem tryPublish_of_serving {b : PersistentBroker cap α} {records : List Record} (h : b.Serving records)
    (value : α) (flags : UInt32) (clock : UInt64) (msyncOk : Bool) :
    let result := b.tryPublish value flags clock msyncOk
    result.2.openStatus = .ok ∧ result.2.broker.valid = true ∧
      if b.broker.isFull then result.1 = ⟨.full, "broker queue is full"⟩ ∧ result.2.writer = b.writer
      else (result.1, result.2.writer) = b.writer.append (messageView value flags) clock msyncOk := by
  intro result
  rcases tryPublish_cases h value flags clock msyncOk with ⟨hfull, heq⟩ | ⟨hfull, -, heq⟩ | ⟨hfull, hok, heq⟩
  · rw [show result = _ from heq, hfull]
    exact ⟨h.openStatus, h.broker, rfl, rfl⟩
  · rw [show result = _ from heq, hfull]
    exact ⟨h.openStatus, h.broker, rfl⟩
  · rw [show result = _ from heq, hfull, Broker.tryPublish_of_not_full h.broker hfull]
    refine ⟨h.openStatus, h.broker, ?_⟩
    rw [if_neg (by decide), ← WalWriter.append_fst_eq_ok h.writer clock msyncOk hok]

omit [TriviallyCopyable α] in
theorem tryConsume_of_valid {b : PersistentBroker cap α} (h : b.valid = true) :
    b.tryConsume.2.2.openStatus = b.openStatus ∧ b.tryConsume.2.2.broker.valid = b.broker.valid ∧
      b.tryConsume.2.2.writer = b.writer := by
  rw [tryConsume, h]
  exact ⟨rfl, b.broker.valid_tryConsume, rfl⟩

def publishedBy : Call α × Reply α → Option α
  | (.tryPublish value _ _ _, (status, _)) => if status.isOk then some value else none
  | _ => none

def published (calls : List (Call α)) (replies : List (Reply α)) : List α :=
  (calls.zip replies).filterMap publishedBy

/-- A publish that finds room in the queue and in the file writes its record where an abandoned
one may be, and abandons it itself if the flush that follows is asked for and fails. -/
def abandonedBy (b : PersistentBroker cap α) (lost : Option α) : Call α → Option α
  | .tryPublish value flags _ msyncOk =>
    if b.broker.isFull then lost
    else if !(b.writer.checkAppend (messageView value flags)).isOk then lost
    else if b.writer.flushOnAppend && !msyncOk then some value
    else none
  | _ => lost

def abandoned (b : PersistentBroker cap α) (lost : Option α) : List (Call α) → Option α
  | [] => lost
  | c :: cs => abandoned (b.call c).2 (b.abandonedBy lost c) cs

/-- The file holds the records of `values`, then that of `lost`, then zeros; only the first
ones are committed. -/
def Logs (b : PersistentBroker cap α) (values : List α) (lost : Option α) : Prop :=
  ∃ (records extra : List Record) (zeros : List UInt8),
    b.Serving records ∧ (∀ r ∈ extra, r.Sealed) ∧ (∀ x ∈ zeros, x = 0) ∧
    b.writer.rest = extra.flatMap Record.encode ++ zeros ∧
    records.map Record.payload = values.map TriviallyCopyable.bytes ∧
    extra.map Record.payload = lost.toList.map TriviallyCopyable.bytes

theorem drop_zeros {extra : List Record} {lost : Option α} {zeros : List UInt8} (hzeros : ∀ x ∈ zeros, x = 0)
    (hextra : extra.map Record.payload = lost.toList.map TriviallyCopyable.bytes) (value : α) :
    ∀ x ∈ (extra.flatMap Record.encode ++ zeros).drop (40 + (TriviallyCopyable.bytes value).length), x = 0 := by
  -- all records have the same length, so the next one covers what the lost one left
  cases lost with
  | none =>
    obtain rfl : extra = [] := by simpa using hextra
    exact fun x hx => hzeros x (List.mem_of_mem_drop hx)
  | some v =>
    obtain ⟨r, rfl, hr⟩ : ∃ r, extra = [r] ∧ r.payload = TriviallyCopyable.bytes v := by
      simpa [List.map_eq_singleton_iff] using hextra
    rw [List.flatMap_singleton, List.drop_left' (by rw [r.length_encode, hr]; simp [TriviallyCopyable.length_bytes])]
    exact hzeros

theorem Logs.tryPublish {b : PersistentBroker cap α} {values : List α} {lost : Option α} (h : b.Logs values lost)
    (value : α) (flags : UInt32) (clock : UInt64) (msyncOk : Bool) :
    let reply := b.call (.tryPublish value flags clock msyncOk)
    reply.2.Logs (values ++ (publishedBy (.tryPublish value flags clock msyncOk, reply.1)).toList)
      (b.abandonedBy lost (.tryPublish value flags clock msyncOk)) := by
  obtain ⟨records, extra, zeros, hserving, hsealed, hzeros, hrest, hvalues, hextra⟩ := h
  obtain ⟨hopen, hbroker, hresult⟩ := tryPublish_of_serving hserving value flags clock msyncOk
  have hdrop := drop_zeros hzeros hextra value
  rw [← hrest] at hdrop
  intro reply
  simp only [reply, call]
  generalize b.tryPublish value flags clock msyncOk = result at hopen hbroker hresult ⊢
  obtain ⟨status, b'⟩ := result
  simp only [publishedBy, abandonedBy] at hopen hbroker hresult ⊢
  have hkeep (hok : status.isOk = false) (hwriter : b'.writer = b.writer) :
      b'.Logs (values ++ (if status.isOk then some value else none).toList) lost := by
    rw [if_neg (by simp [hok]), Option.toList_none, List.append_nil]
    exact ⟨records, extra, zeros, ⟨hopen, hbroker, hwriter ▸ hserving.writer⟩, hsealed, hzeros,
      hwriter ▸ hrest, hvalues, hextra⟩
  rw [WalWriter.append_eq hserving.writer] at hresult
  by_cases hfull : b.broker.isFull = true
  · rw [if_pos hfull] at hresult ⊢
    exact hkeep (by rw [hresult.1]; rfl) hresult.2
  rw [if_neg hfull] at hresult ⊢
  by_cases hcheck : (!(b.writer.checkAppend (messageView value flags)).isOk) = true
  · rw [if_pos hcheck] at hresult ⊢
    obtain ⟨rfl, hwriter⟩ := Prod.mk.inj hresult
    exact hkeep (by simpa using hcheck) hwriter
  rw [if_neg hcheck] at hresult ⊢
  have hm : (b.writer.checkAppend (messageView value flags)).isOk = true := by simpa using hcheck
  by_cases hfail : (b.writer.flushOnAppend && !msyncOk) = true
  · -- the record is abandoned where the next one will be written
    rw [if_pos hfail] at hresult ⊢
    obtain ⟨rfl, hwriter⟩ := Prod.mk.inj hresult
    obtain ⟨hholds, hrest'⟩ := hserving.writer.copied hm clock
    have hone := WalWriter.isSealed_record (w := b.writer)
      ((WalWriter.checkAppend_isOk_iff hserving.writer).mp hm).1 clock
    refine ⟨records, [_], _, ⟨hopen, hbroker, hwriter ▸ hholds⟩, List.forall_mem_singleton.mpr hone, hdrop, ?_, ?_,
      rfl⟩
    · rw [hwriter, hrest', List.flatMap_singleton]
      rfl
    · simpa [Status.isOk] using hvalues
  · rw [if_neg hfail] at hresult ⊢
    obtain ⟨rfl, hwriter⟩ := Prod.mk.inj hresult
    obtain ⟨hholds, hrest'⟩ := hserving.writer.committed hm clock
    refine ⟨_, [], _, ⟨hopen, hbroker, hwriter ▸ hholds⟩, by simp, hdrop, ?_, ?_, rfl⟩
    · rw [hwriter, hrest', List.flatMap_nil, List.nil_append]
      rfl
    · rw [List.map_append, hvalues, List.map_append]
      rfl

theorem Logs.call {b : PersistentBroker cap α} {values : List α} {lost : Option α} (h : b.Logs values lost)
    (c : Call α) :
    (b.call c).2.Logs (values ++ (publishedBy (c, (b.call c).1)).toList) (b.abandonedBy lost c) := by
  cases c with
  | tryPublish value flags clock msyncOk => exact h.tryPublish value flags clock msyncOk
  | tryConsume =>
    obtain ⟨records, extra, zeros, hserving, hlog⟩ := h
    obtain ⟨hopen, hbroker, hwriter⟩ := tryConsume_of_valid hserving.valid
    simp only [publishedBy, Option.toList_none, List.append_nil]
    refine ⟨records, extra, zeros, ⟨hopen.trans hserving.openStatus, hbroker.trans hserving.broker, ?_⟩, ?_⟩
    · exact hwriter.symm ▸ hserving.writer
    · exact hwriter.symm ▸ hlog
  | flush msyncOk =>
    obtain ⟨records, extra, zeros, hserving, hlog⟩ := h
    simp only [publishedBy, Option.toList_none, List.append_nil, PersistentBroker.call, flush, hserving.valid]
    exact ⟨records, extra, zeros, ⟨hserving.openStatus, hserving.broker, hserving.writer⟩, hlog⟩

theorem Logs.run {b : PersistentBroker cap α} {values : List α} {lost : Option α} (h : b.Logs values lost)
    (calls : List (Call α)) :
    (b.run calls).2.Logs (values ++ published calls (b.run calls).1) (b.abandoned lost calls) := by
  induction calls generalizing b values lost with
  | nil => simpa [PersistentBroker.run, published, abandoned] using h
  | cons c cs ih =>
    have hstep := ih (h.call c)
    simp only [PersistentBroker.run, published, abandoned, List.zip_cons_cons, List.filterMap_cons] at hstep ⊢
    generalize publishedBy (c, (b.call c).1) = value at hstep ⊢
    cases value <;> simpa using hstep

theorem map_payload_viewsFrom (offset : UInt64) (records : List Record) :
    (viewsFrom offset records).map WalRecordView.payload = records.map Record.payload := by
  induction records generalizing offset with
  | nil => rfl
  | cons r records ih => simp [viewsFrom, ih]

section Accepting
variable {σ : Type*} (f : σ → α → σ)

def accepting (s : σ) (value : α) (_ : WalRecordHeader) : Status × σ := (.ok, f s value)

theorem recoveryVisitor_accepting {view : WalRecordView} {value : α} (h : view.payload = TriviallyCopyable.bytes value)
    (s : Recovery σ) :
    recoveryVisitor (accepting f) s view =
      (.ok, { s with visited := f s.visited value, counters := s.counters.recordRecoveredRecord }) := by
  rw [recoveryVisitor, h, if_neg (by simp [TriviallyCopyable.length_bytes]), TriviallyCopyable.ofBytes_bytes]
  rfl

theorem foldl_accepting {views : List WalRecordView} {values : List α}
    (h : views.map WalRecordView.payload = values.map TriviallyCopyable.bytes) (s : Recovery σ) :
    views.foldl (fun s view => (recoveryVisitor (accepting f) s view).2) s =
      { s with visited := values.foldl f s.visited, counters := s.counters.recover values.length 0 } := by
  induction values generalizing views s with
  | nil =>
    obtain rfl : views = [] := by simpa using h
    simp [BrokerCounters.recover_zero]
  | cons value values ih =>
    obtain ⟨view, views, rfl, hview, hviews⟩ := List.map_eq_cons_iff.mp h
    rw [List.foldl_cons, ih hviews, recoveryVisitor_accepting f hview]
    simp only [BrokerCounters.recover_recordRecoveredRecord]
    rfl

/-- A visitor that accepts every value is called on every value of the log, in order. -/
theorem Logs.replay_accepting {b : PersistentBroker cap α} {values : List α} {lost : Option α} (h : b.Logs values lost)
    {path : String} {openCalls : OpenCalls} {r : WalReader}
    (hopen : WalReader.openPath path b.writer.file.content openCalls = .ok r) (s : σ) (counters : BrokerCounters) :
    ∃ fuel₀, ∀ fuel, fuel₀ ≤ fuel →
      replayWithMetrics path b.writer.file.content openCalls (accepting f) s counters fuel =
        some (.ok, (values ++ lost.toList).foldl f s, counters.recover (values ++ lost.toList).length 0) := by
  obtain ⟨records, extra, zeros, hserving, hsealed, hzeros, hrest, hvalues, hextra⟩ := h
  obtain ⟨hready, -, -⟩ := WalReader.ready_of_openPath hopen
  have hsplit := hserving.writer.splits_rest hopen
  rw [hrest] at hsplit
  have hall := hsplit.append (splits_encode hsealed zeros)
  have hclean : CleanTail zeros := Or.inr (Or.inl hzeros)
  have hpayloads : (viewsFrom r.currentOffset (records ++ extra)).map WalRecordView.payload =
      (values ++ lost.toList).map TriviallyCopyable.bytes := by
    rw [map_payload_viewsFrom, List.map_append, hvalues, hextra, List.map_append]
  have hvisit : ∀ view ∈ viewsFrom r.currentOffset (records ++ extra), ∀ s : Recovery σ,
      (recoveryVisitor (accepting f) s view).1 = .ok := by
    intro view hview s
    have hmem := List.mem_map_of_mem (f := WalRecordView.payload) hview
    rw [hpayloads] at hmem
    obtain ⟨value, -, hvalue⟩ := List.mem_map.mp hmem
    rw [recoveryVisitor_accepting f hvalue.symm]
  obtain ⟨status, hloop, hcode⟩ := WalReader.replayLoop_of_splits (recoveryVisitor (accepting f)) hready hall
    (recordAt_of_cleanTail hclean) { visited := s, counters := counters } hvisit
  obtain ⟨rfl, -⟩ := hcode.resolve_right fun hc => hc.2 hclean
  refine ⟨(records ++ extra).length + 1, fun fuel hfuel => ?_⟩
  rw [replayWithMetrics, hopen]
  dsimp only
  rw [hloop fuel hfuel, foldl_accepting f hpayloads]
  rfl

end Accepting

def collect (values : List α) (value : α) (_ : WalRecordHeader) : Status × List α := (.ok, values ++ [value])

def Recovers (path : String) (content : FileContent) (calls : OpenCalls) (status : Status) (values : List α) : Prop :=
  ∃ fuel₀, ∀ fuel, fuel₀ ≤ fuel → replay path content calls collect [] fuel = some (status, values)

theorem Recovers.unique {path : String} {content : FileContent} {calls : OpenCalls} {status status' : Status}
    {values values' : List α} (h : Recovers path content calls status values)
    (h' : Recovers path content calls status' values') : values = values' := by
  obtain ⟨fuel₀, hreplay⟩ := h
  obtain ⟨fuel₁, hreplay'⟩ := h'
  have heq := (hreplay _ (Nat.le_max_left fuel₀ fuel₁)).symm.trans (hreplay' _ (Nat.le_max_right fuel₀ fuel₁))
  exact (Prod.mk.inj (Option.some.inj heq)).2

theorem Logs.replay {b : PersistentBroker cap α} {values : List α} {lost : Option α} (h : b.Logs values lost)
    {path : String} {openCalls : OpenCalls} {r : WalReader}
    (hopen : WalReader.openPath path b.writer.file.content openCalls = .ok r) :
    Recovers path b.writer.file.content openCalls .ok (values ++ lost.toList) := by
  have hcollect : (collect : List α → α → _) = accepting fun values value => values ++ [value] := rfl
  obtain ⟨fuel₀, hreplay⟩ := h.replay_accepting (fun values value => values ++ [value]) hopen [] {}
  refine ⟨fuel₀, fun fuel hfuel => ?_⟩
  rw [PersistentBroker.replay, hcollect, hreplay fuel hfuel, List.foldl_append_eq_append, ← List.flatMap_def,
    List.flatMap_singleton']
  rfl

section Run
variable (config : BrokerConfig) (createCalls : CreateCalls) (calls : List (Call α)) (openCalls : OpenCalls)
  {b₀ b : PersistentBroker cap α} {replies : List (Reply α)} {r : WalReader}
  (hopen : ({} : PersistentBroker cap α).openConfig config createCalls = (.ok, b₀))
  (hrun : b₀.run calls = (replies, b))
  (hreader : WalReader.openPath config.wal.path b.writer.file.content openCalls = .ok r)
include hopen hrun hreader

theorem recovers_run : Recovers config.wal.path b.writer.file.content openCalls .ok
    (published calls replies ++ (b₀.abandoned none calls).toList) := by
  obtain ⟨hserving, -, hzeros⟩ := serving_openConfig hopen
  have hlogs : b₀.Logs [] none := ⟨[], [], b₀.writer.rest, hserving, by simp, hzeros, rfl, rfl, rfl⟩
  have hfinal := hlogs.run calls
  rw [hrun, List.nil_append] at hfinal
  exact hfinal.replay hreader

/-- Recovery visits exactly the values whose publish returned `ok` unless the last publish that
wrote a record failed in its flush: that record is complete in the file and is delivered,
although its publish returned an error. -/
theorem recovers_published_iff :
    (∃ status, Recovers config.wal.path b.writer.file.content openCalls status (published calls replies)) ↔
      b₀.abandoned none calls = none := by
  have hrecovers := recovers_run config createCalls calls openCalls hopen hrun hreader
  constructor
  · rintro ⟨status, hvisits⟩
    exact Option.toList_eq_nil_iff.mp (List.append_right_eq_self.mp (hrecovers.unique hvisits))
  · intro hnone
    rw [hnone, Option.toList_none, List.append_nil] at hrecovers
    exact ⟨.ok, hrecovers⟩

end Run

def smallConfig : BrokerConfig :=
  { queue := { capacity := 2 }, wal := { fileSizeBytes := 82, flushOnCommit := true }, enableWal := true }

def publishSeven (msyncOk : Bool) : List (Call UInt8) := [.tryPublish 7 0 5 msyncOk]

theorem recovers_published_flushed :
    ∃ b₀ b : PersistentBroker .least UInt8,
      ({} : PersistentBroker .least UInt8).openConfig smallConfig ⟨some 3, true, some 4096⟩ = (.ok, b₀) ∧
      b₀.run (publishSeven true) = ([(.ok, none)], b) ∧
      ∃ status, Recovers "aether.wal" b.writer.file.content ⟨some 4, true, some 8192⟩ status [(7 : UInt8)] := by
  refine ⟨_, _, rfl, rfl, ?_⟩
  have hopen : ({} : PersistentBroker .least UInt8).openConfig smallConfig ⟨some 3, true, some 4096⟩ = (.ok, _) := rfl
  exact (recovers_published_iff smallConfig ⟨some 3, true, some 4096⟩ (publishSeven true)
    ⟨some 4, true, some 8192⟩ hopen rfl rfl).mpr rfl

/-- The only publish fails in its flush, and recovery delivers its value. -/
theorem not_recovers_published_failed_flush :
    ∃ b₀ b : PersistentBroker .least UInt8,
      ({} : PersistentBroker .least UInt8).openConfig smallConfig ⟨some 3, true, some 4096⟩ = (.ok, b₀) ∧
      b₀.run (publishSeven false) = ([(⟨.ioError, "failed to flush mmap file"⟩, none)], b) ∧
      Recovers "aether.wal" b.writer.file.content ⟨some 4, true, some 8192⟩ .ok [(7 : UInt8)] ∧
      ¬ ∃ status, Recovers "aether.wal" b.writer.file.content ⟨some 4, true, some 8192⟩ status ([] : List UInt8) := by
  refine ⟨_, _, rfl, rfl, ?_⟩
  have hopen : ({} : PersistentBroker .least UInt8).openConfig smallConfig ⟨some 3, true, some 4096⟩ = (.ok, _) := rfl
  have hrecovers := recovers_run smallConfig ⟨some 3, true, some 4096⟩ (publishSeven false)
    ⟨some 4, true, some 8192⟩ hopen rfl rfl
  exact ⟨hrecovers, fun ⟨_, hnone⟩ => absurd (hrecovers.unique hnone) (by decide +kernel)⟩

structure Undisturbed (b : PersistentBroker cap α) (reopened : Status × PersistentBroker cap α) : Prop where
  rejected : reopened.1.isOk = false
  valid : reopened.2.valid = true
  queue : reopened.2.broker.queue = b.broker.queue
  offset : reopened.2.writer.currentOffset = b.writer.currentOffset
  sequence : reopened.2.writer.nextSequence = b.writer.nextSequence
  replies : ∀ calls, (reopened.2.run calls).1 = (b.run calls).1

theorem call_of_not_valid {b : PersistentBroker cap α} (h : b.valid = false) (c : Call α) :
    (b.call c).1 = (b.openStatus, none) ∧ (b.call c).2.openStatus = b.openStatus ∧
      (b.call c).2.broker = b.broker ∧ (b.call c).2.writer = b.writer := by
  cases c <;> simp [call, tryPublish, tryConsume, flush, h]

theorem run_of_not_valid {b : PersistentBroker cap α} (h : b.valid = false) (calls : List (Call α)) :
    (b.run calls).1 = calls.map (fun _ => (b.openStatus, none)) ∧ (b.run calls).2.broker = b.broker ∧
      (b.run calls).2.writer = b.writer := by
  induction calls generalizing b with
  | nil => exact ⟨rfl, rfl, rfl⟩
  | cons c cs ih =>
    obtain ⟨hreply, hstatus, hbroker, hwriter⟩ := call_of_not_valid h c
    have hvalid : (b.call c).2.valid = false := by
      rw [valid, hstatus, hwriter]
      exact h
    obtain ⟨hreplies, hbroker', hwriter'⟩ := ih hvalid
    exact ⟨by simp [run, hreply, hreplies, hstatus], hbroker'.trans hbroker, hwriter'.trans hwriter⟩

/-- A second `open` is rejected but ends the service: the log and the queue stay as they
are, and every later call returns the status of the rejection. -/
theorem reopen_ends_service (b : PersistentBroker cap α) (hvalid : b.valid = true) (config : BrokerConfig)
    (createCalls : CreateCalls) :
    let status : Status := ⟨.invalidArgument, "persistent broker is already open"⟩
    let reopened := b.openConfig config createCalls
    reopened.1 = status ∧ reopened.2.valid = false ∧
      (∀ calls, (reopened.2.run calls).1 = calls.map (fun _ => (status, none)) ∧
        (reopened.2.run calls).2.broker = b.broker ∧ (reopened.2.run calls).2.writer = b.writer) ∧
      ¬ Undisturbed b reopened := by
  have hwriter : b.writer.valid = true := (Bool.and_eq_true_iff.mp hvalid).2
  intro status reopened
  have hreopened : reopened = (status, { b with openStatus := status }) := by
    simp only [reopened, openConfig, hwriter, if_true]
    rfl
  have hdown : ({ b with openStatus := status } : PersistentBroker cap α).valid = false := rfl
  rw [hreopened]
  exact ⟨rfl, hdown, run_of_not_valid hdown, fun h => absurd h.valid (by rw [hdown]; decide)⟩

theorem reopen_ends_service_smallConfig :
    let b := (({} : PersistentBroker .least UInt8).openConfig smallConfig ⟨some 3, true, some 4096⟩).2
    b.valid = true ∧ ¬ Undisturbed b (b.openWal smallConfig.wal ⟨some 4, true, some 8192⟩) :=
  ⟨rfl, (reopen_ends_service _ rfl _ _).2.2.2⟩

/-- The broker of the running example is no longer valid, and an empty queue is reported as
a broker that is already open. -/
theorem not_undisturbed_smallConfig :
    let b := (({} : PersistentBroker .least UInt8).openConfig smallConfig ⟨some 3, true, some 4096⟩).2
    let reopened := b.openConfig smallConfig ⟨some 4, true, some 8192⟩
    b.valid = true ∧ reopened.2.valid = false ∧ b.tryConsume.1 = ⟨.empty, "broker queue is empty"⟩ ∧
      reopened.2.tryConsume.1 = ⟨.invalidArgument, "persistent broker is already open"⟩ ∧
      ¬ Undisturbed b reopened :=
  ⟨rfl, rfl, rfl, rfl, fun h => absurd h.valid (by decide)⟩

end AetherStream.PersistentBroker
