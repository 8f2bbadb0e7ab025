import AetherStream.Basis.Simulation
import AetherStream.Broker.TypedRecovery
import AetherStream.Broker.WalBeforeQueue
import AetherStream.Queue.Sequential
import AetherStream.Wal.CrashReplay

/-! What a new process recovers when the old one ends at any moment, between two steps of its
threads or in the middle of the copy of a record. -/

namespace AetherStream.PersistentBroker
open Basis Bytes Wal
variable {cap : Capacity} {α : Type*} [TriviallyCopyable α]

theorem visitedBy_collect (values : List α) (views : List WalRecordView) :
    visitedBy collect values views = values ++ views.map fun view => TriviallyCopyable.ofBytes view.payload := by
  induction views generalizing values with
  | nil => exact (List.append_nil values).symm
  | cons view views ih =>
    rw [List.map_cons, List.append_cons]
    exact ih _

theorem isOk_answers_collect (values : List α) (views : List WalRecordView) :
    ∀ answer ∈ answers collect values views, answer.isOk = true := by
  induction views generalizing values with
  | nil => simp [answers]
  | cons view views ih => exact List.forall_mem_cons.mpr ⟨rfl, ih _⟩

theorem recoverable_collect {values seen : List α} {views : List WalRecordView}
    (h : views.map WalRecordView.payload = values.map TriviallyCopyable.bytes) : Recoverable collect seen views := by
  refine ⟨fun view hview => ?_, fun answer hanswer => ?_⟩
  · have hmem := List.mem_map_of_mem (f := WalRecordView.payload) hview
    rw [h] at hmem
    obtain ⟨value, -, hvalue⟩ := List.mem_map.mp hmem
    rw [Fits, ← hvalue, TriviallyCopyable.length_bytes]
  · exact isOk_answers_collect seen views answer (List.mem_of_mem_dropLast hanswer)

theorem recovers_of_ahead {path : String} {content : FileContent} {calls : OpenCalls} {r : WalReader}
    (hopen : WalReader.openPath path content calls = .ok r) {records : List Record} {tail : List UInt8}
    (hahead : r.Ahead records tail) :
    ∃ status, Recovers path content calls status
      ((recoverable collect ([] : List α) (viewsFrom r.currentOffset records)).map
        fun view => (TriviallyCopyable.ofBytes view.payload : α)) := by
  have hvisited := (recovered_visits collect ([] : List α) {} (viewsFrom r.currentOffset records)).visited
  rw [visitedBy_collect, List.nil_append] at hvisited
  generalize hvisit : visits (recoveryVisitor (collect (α := α))) _ _ = visit at hvisited
  refine ⟨visit.stop.getD (records.foldl WalReader.advance r).endStatus, records.length + 1, fun fuel hfuel => ?_⟩
  rw [PersistentBroker.replay, replayWithMetrics, hopen]
  dsimp only
  rw [hahead.replayLoop_eq (recoveryVisitor collect) _ hfuel]
  dsimp only [Option.map_some]
  rw [hvisit, hvisited]

theorem length_le_one_of_zeros {tail rest : List UInt8} {others : List Record}
    (hsplit : framing.Splits tail others rest) {n : Nat} (hzeros : ∀ x ∈ tail.drop (40 + n), x = 0)
    {offset : UInt64} {views : List WalRecordView} (hviews : views <+: viewsFrom offset others)
    (hfits : ∀ view ∈ views, view.payload.length = n) : views.length ≤ 1 := by
  match views, others with
  | [], _ => exact Nat.zero_le 1
  | [_], _ => exact le_rfl
  | first :: second :: _, [] => exact absurd hviews.length_le (by simp [viewsFrom])
  | first :: second :: _, [_] => exact absurd hviews.length_le (by simp [viewsFrom])
  | first :: second :: _, r :: next :: _ =>
    obtain ⟨rfl, -⟩ := List.cons_prefix_cons.mp hviews
    cases hsplit with
    | more hframe hrest =>
      obtain ⟨-, -, hlen, hle, hpayload, -⟩ := recordAt_eq_some.mp hframe
      have hsize : r.payload.length = n := hfits _ List.mem_cons_self
      rw [hpayload, List.length_take, List.length_drop, Nat.min_eq_left (by omega)] at hsize
      rw [hlen, hsize] at hrest
      cases hrest with
      | more hframe' _ =>
        rw [show framing.frame _ = none from recordAt_of_cleanTail (Or.inr (Or.inl hzeros))] at hframe'
        contradiction

/-- Whatever follows the records of `values`, recovery ends and starts with `values`; where
only zeros follow after one more record, it goes on with one value at most, and where only
zeros follow, with none. -/
theorem recovers_prefix {path : String} {content : FileContent} {calls : OpenCalls} {r : WalReader}
    (hopen : WalReader.openPath path content calls = .ok r) {records : List Record} {tail : List UInt8}
    (hsplit : framing.Splits r.rest records tail) {values : List α}
    (hvalues : records.map Record.payload = values.map TriviallyCopyable.bytes) :
    ∃ status more, Recovers path content calls status (values ++ more) ∧
      ((∀ x ∈ tail.drop (40 + (TriviallyCopyable.size α).toNat), x = 0) → more.length ≤ 1) ∧
      ((∀ x ∈ tail, x = 0) → more = []) := by
  obtain ⟨hready, -, -⟩ := WalReader.ready_of_openPath hopen
  obtain ⟨others, tail', hothers, hstuck⟩ := framing.exists_splits tail
  have hahead : r.Ahead (records ++ others) tail' := ⟨hready, hsplit.append hothers, hstuck⟩
  obtain ⟨status, hrecovers⟩ := recovers_of_ahead (α := α) hopen hahead
  have hviews : (viewsFrom r.currentOffset records).map WalRecordView.payload =
      values.map TriviallyCopyable.bytes := by
    rw [map_payload_viewsFrom, hvalues]
  have hfirst : (viewsFrom r.currentOffset records).map (fun view => TriviallyCopyable.ofBytes view.payload) =
      values := by
    have hmap := congrArg (List.map (TriviallyCopyable.ofBytes : List UInt8 → α)) hviews
    rw [List.map_map, List.map_map] at hmap
    refine hmap.trans ((List.map_congr_left fun value _ => ?_).trans (List.map_id values))
    exact TriviallyCopyable.ofBytes_bytes value
  rw [WalReader.viewsFrom_append] at hrecovers
  generalize viewsFrom r.currentOffset records = views at hviews hfirst hrecovers
  obtain ⟨hpre, hrec, hlongest⟩ := recoverable_longest collect ([] : List α)
    (views ++ viewsFrom (records.foldl WalReader.advance r).currentOffset others)
  obtain ⟨more, hmore⟩ := hlongest views (List.prefix_append _ _) (recoverable_collect hviews)
  rw [← hmore, List.map_append, hfirst] at hrecovers
  rw [← hmore] at hpre hrec
  have hmore' := (List.prefix_append_right_inj views).mp hpre
  refine ⟨status, _, hrecovers, fun hzeros => ?_, fun htail => ?_⟩
  · rw [List.length_map]
    refine length_le_one_of_zeros hothers hzeros hmore' fun view hview => ?_
    exact hrec.1 view (List.mem_append_right views hview)
  · have hnone : recordAt tail = none := recordAt_of_cleanTail (Or.inr (Or.inl htail))
    obtain ⟨rfl, -⟩ := hothers.unique hstuck (.done tail) hnone
    rw [List.prefix_nil.mp hmore']
    rfl

theorem Logs.of_writer {b b' : PersistentBroker cap α} {values : List α} {lost : Option α} (h : b.Logs values lost)
    (hwriter : b'.writer = b.writer) (hstatus : b'.openStatus = .ok) (hbroker : b'.broker.valid = true) :
    b'.Logs values lost := by
  obtain ⟨records, extra, zeros, hserving, hsealed, hzeros, hrest, hvalues, hextra⟩ := h
  exact ⟨records, extra, zeros, ⟨hstatus, hbroker, hwriter ▸ hserving.writer⟩, hsealed, hzeros, hwriter ▸ hrest,
    hvalues, hextra⟩

omit [TriviallyCopyable α] in
theorem isFull_new : ({} : Broker cap α).isFull = false := by
  have htwo : 2 ≤ cap.toNat := UInt64.le_iff_toNat_le.mp cap.two_le
  refine decide_eq_false fun hfull => ?_
  have hle := (Ring.rests_empty cap α).full_iff.mp hfull
  rw [List.length_nil] at hle
  omega

theorem code_checkAppend_ne (w : WalWriter) (message : MessageView) : (w.checkAppend message).code ≠ .ioError := by
  unfold WalWriter.checkAppend validateMessageView
  dsimp only
  split_ifs <;> decide

theorem abandonedBy_of_append {b : PersistentBroker cap α} {records : List Record} (hserving : b.Serving records)
    (hempty : b.broker.isFull = false) (lost : Option α) (value : α) (flags : UInt32) (clock : UInt64)
    (msyncOk : Bool) :
    let status := (b.writer.append (messageView value flags) clock msyncOk).1
    let lost' := b.abandonedBy lost (.tryPublish value flags clock msyncOk)
    (status.isOk = true → lost' = none) ∧
      (status.isOk = false → lost' = if status.code = .ioError then some value else lost) := by
  simp only [abandonedBy, WalWriter.append_eq hserving.writer, hempty, Bool.false_eq_true, if_false]
  by_cases hcheck : (!(b.writer.checkAppend (messageView value flags)).isOk) = true
  · simp only [if_pos hcheck, if_neg (code_checkAppend_ne _ _)]
    exact ⟨fun hok => absurd hok (by simpa using hcheck), fun _ => trivial⟩
  · simp only [if_neg hcheck]
    by_cases hflush : (b.writer.flushOnAppend && !msyncOk) = true
    · simp only [if_pos hflush]
      exact ⟨fun hok => Bool.noConfusion hok, fun _ => rfl⟩
    · simp only [if_neg hflush]
      exact ⟨fun _ => trivial, fun hok => Bool.noConfusion hok⟩

def PublishPc.value : PublishPc α → Option α
  | .idle => none
  | .loadedHead value _ _ | .notFull value _ | .appended value => some value

namespace Session

def logOnly (s : Session cap α) : PersistentBroker cap α := { openStatus := s.openStatus, writer := s.writer }

/-- The value whose publish returns `io_error` with this step. -/
def failing (s : Session cap α) : SessionStep α → List α
  | .producer a => ((s.publishStep a).replies.drop s.replies.length).filterMap fun status =>
      if status.code = .ioError then s.publish.value else none
  | .consumer _ => []

def failed (s : Session cap α) (steps : List (SessionStep α)) : List α := emitted step failing s steps

/-- Every value that was accepted or is on its way is in the log, and behind them at most the
last one whose flush failed. -/
structure Logged (s : Session cap α) (failed : List α) (lost : Option α) : Prop where
  inv : ∃ records, s.Inv records
  openStatus : s.openStatus = .ok
  logs : s.logOnly.Logs (s.queue.producer.accepted ++ s.inFlight) lost
  alone : s.inFlight = [] ∨ lost = none
  lost : lost = none ∨ lost = failed.getLast?

variable {s : Session cap α} {failed : List α} {lost : Option α}

theorem logged_start {b : PersistentBroker cap α} (hserving : b.Serving []) (hbroker : b.broker = {})
    (hzeros : ∀ x ∈ b.writer.rest, x = 0) : (start b).Logged [] none := by
  have haccepted : (start b).queue.producer.accepted ++ (start b).inFlight = [] := rfl
  refine ⟨⟨[], inv_start hserving hbroker⟩, hserving.openStatus, ?_, Or.inl rfl, Or.inl rfl⟩
  rw [haccepted]
  exact ⟨[], [], b.writer.rest, ⟨hserving.openStatus, rfl, hserving.writer⟩, by simp, hzeros, rfl, rfl, rfl⟩

theorem accepted_of_same_records {s' : Session cap α} {records : List Record} (hinv : s.Inv records)
    (hinv' : s'.Inv records) :
    s'.queue.producer.accepted ++ s'.inFlight = s.queue.producer.accepted ++ s.inFlight := by
  have hinj : Function.Injective (TriviallyCopyable.bytes : α → List UInt8) :=
    Function.LeftInverse.injective TriviallyCopyable.ofBytes_bytes
  exact List.map_injective_iff.mpr hinj (hinv'.payloads.symm.trans hinv.payloads)

theorem Logged.keep (h : s.Logged failed lost) {s' : Session cap α}
    (hinv' : ∀ records, s.Inv records → s'.Inv records) (hwriter : s'.writer = s.writer)
    (hstatus : s'.openStatus = s.openStatus) (hflight : s'.inFlight = s.inFlight ∨ s'.inFlight = []) :
    s'.Logged failed lost := by
  obtain ⟨records, hinv⟩ := h.inv
  have hopen := hstatus.trans h.openStatus
  refine ⟨⟨records, hinv' records hinv⟩, hopen, ?_, ?_, h.lost⟩
  · rw [accepted_of_same_records hinv (hinv' records hinv)]
    exact h.logs.of_writer hwriter hopen rfl
  · rcases hflight with hflight | hflight
    · rw [hflight]
      exact h.alone
    · exact Or.inl hflight

theorem failing_append {value : α} {flags : UInt32} (hpc : s.publish = .notFull value flags) (clock : UInt64)
    (msyncOk : Bool) :
    let status := (s.writer.append (messageView value flags) clock msyncOk).1
    s.failing (.producer (.append clock msyncOk)) =
      if !status.isOk && status.code = .ioError then [value] else [] := by
  generalize happend : s.writer.append (messageView value flags) clock msyncOk = result
  obtain ⟨status, writer⟩ := result
  simp only [failing, publishStep, hpc, happend]
  cases hok : status.isOk with
  | true => simp
  | false => by_cases hcode : status.code = .ioError <;> simp [returning, hcode, PublishPc.value]

theorem failing_of_not_append (hvalid : s.valid = true) (a : PublishStep α)
    (ha : ∀ clock msyncOk, a ≠ .append clock msyncOk) : s.failing (.producer a) = [] := by
  simp only [failing]
  unfold publishStep
  split
  case h_1 => simp [hvalid]
  case h_2 =>
    split
    · simp
    · dsimp only
      split <;> simp [returning]
  case h_3 => exact absurd rfl (ha _ _)
  case h_4 =>
    dsimp only
    split <;> simp [returning, Status.ok]
  case h_5 => simp

theorem Logged.append (h : s.Logged failed lost) {value : α} {flags : UInt32} (hpc : s.publish = .notFull value flags)
    (clock : UInt64) (msyncOk : Bool) :
    ∃ lost', (s.publishStep (.append clock msyncOk)).Logged
      (failed ++ s.failing (.producer (.append clock msyncOk))) lost' := by
  have hfailing := failing_append hpc clock msyncOk
  obtain ⟨records, hinv⟩ := h.inv
  obtain ⟨more, hinv'⟩ := hinv.append hpc clock msyncOk
  have hflight : s.inFlight = [] := by rw [inFlight, hpc]
  have hserving : s.logOnly.Serving records := ⟨h.openStatus, rfl, hinv.writer⟩
  have hempty : s.logOnly.broker.isFull = false := isFull_new
  have hlost := abandonedBy_of_append hserving hempty lost value flags clock msyncOk
  have hlogs := h.logs.tryPublish value flags clock msyncOk
  obtain ⟨-, -, hresult⟩ := tryPublish_of_serving hserving value flags clock msyncOk
  rw [if_neg (by simp [hempty])] at hresult
  rw [hflight, List.append_nil] at hlogs
  generalize s.logOnly.abandonedBy lost (.tryPublish value flags clock msyncOk) = lost' at hlost hlogs
  rcases hpublish : s.logOnly.tryPublish value flags clock msyncOk with ⟨status, b⟩
  simp only [PersistentBroker.call, publishedBy, hpublish] at hlogs hresult
  -- what the publish does to a log of its own is what the append does to the session's
  have happend : s.writer.append (messageView value flags) clock msyncOk = (status, b.writer) := hresult.symm
  simp only [show s.logOnly.writer = s.writer from rfl, happend] at hlost hfailing
  rw [hfailing]
  simp only [publishStep, hpc, happend] at hinv' ⊢
  cases hok : status.isOk with
  | true =>
    simp only [hok, Bool.not_true, Bool.false_eq_true, if_false, if_true, Option.toList_some] at hinv' hlogs ⊢
    obtain rfl := hlost.1 hok
    exact ⟨none, ⟨_, hinv'⟩, h.openStatus, hlogs.of_writer rfl h.openStatus rfl, Or.inr rfl, Or.inl rfl⟩
  | false =>
    simp only [hok, Bool.not_false, Bool.false_eq_true, if_false, if_true, Option.toList_none] at hinv' hlogs ⊢
    obtain rfl := hlost.2 hok
    refine ⟨_, ⟨_, hinv'⟩, h.openStatus, hlogs.of_writer rfl h.openStatus rfl, Or.inl rfl, ?_⟩
    by_cases hcode : status.code = .ioError
    · simp [hcode]
    · simpa [hcode] using h.lost

theorem publishStep_log (s : Session cap α) (a : PublishStep α) (ha : ∀ clock msyncOk, a ≠ .append clock msyncOk) :
    (s.publishStep a).writer = s.writer ∧ (s.publishStep a).openStatus = s.openStatus ∧
      ((s.publishStep a).inFlight = s.inFlight ∨ (s.publishStep a).inFlight = []) := by
  unfold publishStep
  split
  case h_1 hpc _ => split <;> exact ⟨rfl, rfl, Or.inr rfl⟩
  case h_2 hpc _ =>
    split
    · exact ⟨rfl, rfl, Or.inl rfl⟩
    · dsimp only
      split <;> exact ⟨rfl, rfl, Or.inr rfl⟩
  case h_3 => exact absurd rfl (ha _ _)
  case h_4 value a hpc =>
    dsimp only
    split
    · exact ⟨rfl, rfl, Or.inl rfl⟩
    · exact ⟨rfl, rfl, Or.inr rfl⟩
    · exact ⟨rfl, rfl, Or.inr rfl⟩
  case h_5 => exact ⟨rfl, rfl, Or.inl rfl⟩

theorem writer_step (s : Session cap α) (a : SessionStep α) : (s.step a).writer = s.writer ∨
    ∃ message clock msyncOk, (s.step a).writer = (s.writer.append message clock msyncOk).2 := by
  cases a with
  | consumer a => exact Or.inl (by cases a <;> simp only [Session.step] <;> (try split) <;> rfl)
  | producer a =>
    show (s.publishStep a).writer = s.writer ∨ ∃ message clock msyncOk, (s.publishStep a).writer = _
    by_cases ha : ∃ clock msyncOk, a = .append clock msyncOk
    · obtain ⟨clock, msyncOk, rfl⟩ := ha
      cases hpc : s.publish with
      | notFull value flags =>
        refine Or.inr ⟨messageView value flags, clock, msyncOk, ?_⟩
        simp only [publishStep, hpc]
        split <;> rfl
      | _ => exact Or.inl (by simp [publishStep, hpc])
    · exact Or.inl (s.publishStep_log a fun clock msyncOk h => ha ⟨clock, msyncOk, h⟩).1

theorem Inv.publishStep_keep {records : List Record} (hinv : s.Inv records) (a : PublishStep α)
    (ha : ∀ clock msyncOk, a ≠ .append clock msyncOk) : (s.publishStep a).Inv records := by
  cases hpc : s.publish <;> cases a <;> first
    | exact hinv.enter hpc _ _
    | exact hinv.loadTail hpc _
    | exact hinv.push hpc _
    | exact absurd rfl (ha _ _)
    | simpa [publishStep, hpc] using hinv

theorem Logged.step (h : s.Logged failed lost) (a : SessionStep α) :
    ∃ lost', (s.step a).Logged (failed ++ s.failing a) lost' := by
  obtain ⟨records, hinv⟩ := h.inv
  cases a with
  | consumer a =>
    rw [show s.failing (.consumer a) = [] from rfl, List.append_nil]
    refine ⟨lost, h.keep (fun records hinv => hinv.consumer a) ?_ ?_ ?_⟩ <;>
      cases a <;> simp only [Session.step] <;> (try split) <;> first | rfl | exact Or.inl rfl | exact Or.inl trivial
  | producer a =>
    show ∃ lost', (s.publishStep a).Logged _ lost'
    by_cases ha : ∃ clock msyncOk, a = .append clock msyncOk
    · obtain ⟨clock, msyncOk, rfl⟩ := ha
      cases hpc : s.publish with
      | notFull value flags => exact h.append hpc clock msyncOk
      | _ => exact ⟨lost, by simpa [failing, publishStep, hpc] using h⟩
    · push Not at ha
      obtain ⟨hwriter, hstatus, hflight⟩ := s.publishStep_log a ha
      rw [failing_of_not_append hinv.valid a ha, List.append_nil]
      exact ⟨lost, h.keep (fun records hinv => hinv.publishStep_keep a ha) hwriter hstatus hflight⟩

theorem Logged.run (h : s.Logged failed lost) (steps : List (SessionStep α)) :
    ∃ lost', (s.run steps).Logged (failed ++ s.failed steps) lost' := by
  have hall : Along Session.step (fun _ _ => True) s steps := along_of_forall_mem fun _ _ _ => trivial
  refine hall.keeps (I := fun s failed => ∃ lost, s.Logged failed lost) ?_ ⟨lost, h⟩
  rintro s failed a ⟨lost, h⟩ -
  exact h.step a

omit [TriviallyCopyable α] in
theorem inFlight_length_le (s : Session cap α) : s.inFlight.length ≤ 1 := by
  unfold inFlight
  split <;> simp

def slack (s : Session cap α) : Nat := if s.inFlight = [] then 40 + (TriviallyCopyable.size α).toNat else 0

/-- A content that has the committed records, byte by byte, and nothing but zeros from a record's
length behind them on. -/
structure Image (s : Session cap α) (content : FileContent) : Prop where
  committed : ∀ i < s.writer.currentOffset.toNat, content.bytes[i]? = s.writer.file.bytes[i]?
  zeros : ∀ i x, s.writer.currentOffset.toNat + s.slack ≤ i → content.bytes[i]? = some x → x = 0

theorem Logged.drop_slack (h : s.Logged failed lost) : ∀ x ∈ s.writer.rest.drop s.slack, x = 0 := by
  obtain ⟨records, extra, zeros, -, -, hzeros, hrest, -, hextra⟩ := h.logs
  rw [slack, show s.writer.rest = _ from hrest]
  split_ifs with hflight
  · cases lost with
    | none =>
      obtain rfl : extra = [] := by simpa using hextra
      exact fun x hx => hzeros x (List.mem_of_mem_drop hx)
    | some value =>
      have hdrop := drop_zeros hzeros hextra value
      rwa [TriviallyCopyable.length_bytes] at hdrop
  · obtain rfl : lost = none := h.alone.resolve_left hflight
    obtain rfl : extra = [] := by simpa using hextra
    exact hzeros

theorem Logged.image (h : s.Logged failed lost) : s.Image s.writer.file.content where
  committed _ _ := rfl
  zeros i x hi hx := by
    refine h.drop_slack x (List.mem_of_getElem? (i := i - (s.writer.currentOffset.toNat + s.slack)) ?_)
    rw [WalWriter.rest, List.drop_drop, List.getElem?_drop, Nat.add_sub_cancel' hi]
    exact hx

theorem Image.take_bytes {content : FileContent} (himage : s.Image content) {records : List Record}
    (hholds : s.writer.Holds records) :
    content.bytes.take s.writer.currentOffset.toNat = records.flatMap Record.encode := by
  rw [← hholds.text]
  refine List.ext_getElem? fun i => ?_
  rw [List.getElem?_take, List.getElem?_take]
  split_ifs with hi
  · exact himage.committed i hi
  · rfl

theorem Image.recovers {content : FileContent} (himage : s.Image content) (h : s.Logged failed lost) {path : String}
    {calls : OpenCalls} {r : WalReader} (hread : WalReader.openPath path content calls = .ok r) :
    ∃ status more, Recovers path content calls status (s.queue.producer.accepted ++ (s.inFlight ++ more)) ∧
      (s.inFlight ++ more).length ≤ 1 := by
  obtain ⟨records, extra, zeros, hserving, -, -, -, hvalues, -⟩ := h.logs
  have hholds : s.writer.Holds records := hserving.writer
  have hsplit : framing.Splits r.rest records (content.bytes.drop s.writer.currentOffset.toNat) := by
    have hall := splits_encode hholds.isSealed (content.bytes.drop s.writer.currentOffset.toNat)
    rw [← himage.take_bytes hholds, List.take_append_drop] at hall
    rwa [(WalReader.ready_of_openPath hread).2.2]
  have hdrop {n : Nat} (hn : s.slack ≤ n) : ∀ x ∈ (content.bytes.drop s.writer.currentOffset.toNat).drop n, x = 0 := by
    intro x hx
    rw [List.drop_drop] at hx
    obtain ⟨i, hi⟩ := List.getElem?_of_mem hx
    rw [List.getElem?_drop] at hi
    exact himage.zeros _ x (by omega) hi
  obtain ⟨status, more, hrecovers, hlen, hnone⟩ := recovers_prefix hread hsplit hvalues
  rw [List.append_assoc] at hrecovers
  refine ⟨status, more, hrecovers, ?_⟩
  by_cases hflight : s.inFlight = []
  · rw [hflight, List.nil_append]
    exact hlen (hdrop (by rw [slack, if_pos hflight]))
  · -- with a value on its way there is nothing behind it
    rw [hnone (hdrop (n := 0) (by rw [slack, if_neg hflight])), List.append_nil]
    exact s.inFlight_length_le

/-- What the file can hold when the process ends: the mapping as it is between two steps, or
with only so much of the record that was being copied. -/
inductive Crash (s : Session cap α) : FileContent → Prop
  | between : Crash s s.writer.file.content
  | copying {value : α} {flags : UInt32} (hpc : s.publish = .notFull value flags)
      (hcheck : (s.writer.checkAppend (messageView value flags)).isOk = true) (clock : UInt64) {k : Nat}
      (hk : k ≤ 40 + (TriviallyCopyable.bytes value).length) :
      Crash s (s.writer.torn (messageView value flags) clock k)

theorem Inv.consumed_append_queued {records : List Record} (hinv : s.Inv records) :
    s.consumed ++ s.queued = s.queue.producer.accepted.map some := by
  have htaken := hinv.holds.taken_append_contents hinv.queue.ring s.queue.length_values
  rwa [SpscRingBuffer.take_values] at htaken

theorem Logged.recovers_between (h : s.Logged failed lost) {path : String} {calls : OpenCalls} {r : WalReader}
    (hread : WalReader.openPath path s.writer.file.content calls = .ok r) :
    Recovers path s.writer.file.content calls .ok (s.queue.producer.accepted ++ (s.inFlight ++ lost.toList)) := by
  rw [← List.append_assoc]
  exact h.logs.replay hread

theorem Crash.image {content : FileContent} (hcrash : s.Crash content) (h : s.Logged failed lost) :
    s.Image content := by
  cases hcrash with
  | between => exact h.image
  | @copying value flags hpc hcheck clock k hk =>
    obtain ⟨records, -, -, hserving, -⟩ := h.logs
    have hholds : s.writer.Holds records := hserving.writer
    have hfits := hholds.fits hcheck
    have hlen : ((s.writer.record (messageView value flags) clock).encode.take k).length = k := by
      rw [List.length_take, Record.length_encode]
      exact Nat.min_eq_left hk
    -- outside the bytes of the record the file is as it was
    have hbytes (i : Nat) (hi : ¬ (s.writer.currentOffset.toNat ≤ i ∧ i < s.writer.currentOffset.toNat + k)) :
        (s.writer.torn (messageView value flags) clock k).bytes[i]? = s.writer.file.bytes[i]? := by
      show (overwrite s.writer.file.bytes s.writer.currentOffset.toNat
        ((s.writer.record (messageView value flags) clock).encode.take k))[i]? = _
      rw [getElem?_overwrite (by rw [hlen]; exact (Nat.add_le_add_left hk _).trans hfits), hlen, if_neg hi]
    have hslack : s.slack = 40 + (TriviallyCopyable.bytes value).length := by
      rw [slack, inFlight, hpc, if_pos rfl, TriviallyCopyable.length_bytes]
    refine ⟨fun i hi => hbytes i (by omega), fun i x hi hx => h.image.zeros i x hi ?_⟩
    rwa [hbytes i (by omega)] at hx

theorem Logged.recovers_crash (h : s.Logged failed lost) {content : FileContent} (hcrash : s.Crash content)
    {path : String} {calls : OpenCalls} {r : WalReader} (hread : WalReader.openPath path content calls = .ok r) :
    ∃ status more, Recovers path content calls status (s.queue.producer.accepted ++ more) ∧ more.length ≤ 1 ∧
      (content = s.writer.file.content → status = .ok ∧
        (more = s.inFlight ∨ ∃ value, failed.getLast? = some value ∧ more = [value])) := by
  by_cases hcontent : content = s.writer.file.content
  · subst hcontent
    refine ⟨_, _, h.recovers_between hread, ?_, fun _ => ⟨rfl, ?_⟩⟩
    · rcases h.alone with hflight | rfl
      · rw [hflight]
        cases lost <;> simp
      · rw [Option.toList_none, List.append_nil]
        exact s.inFlight_length_le
    · cases lost with
      | none => exact Or.inl (List.append_nil _)
      | some value =>
        have hflight := h.alone.resolve_right (Option.some_ne_none value)
        have hlast := h.lost.resolve_left (Option.some_ne_none value)
        exact Or.inr ⟨value, hlast.symm, by rw [hflight]; rfl⟩
  · obtain ⟨status, more, hrecovers, hlen⟩ := (hcrash.image h).recovers h hread
    exact ⟨status, _, hrecovers, hlen, fun heq => absurd heq hcontent⟩

/-- A process that ends at any moment leaves a file from which a new one recovers every value
that was consumed or is queued, in order, and at most one more; between two steps that is the
value on its way or the last one whose publish was answered with `io_error`. -/
theorem crash_recovery (config : BrokerConfig) (calls : CreateCalls) (b : PersistentBroker cap α)
    (hopen : ({} : PersistentBroker cap α).openConfig config calls = (.ok, b)) (steps : List (SessionStep α))
    (content : FileContent) (hcrash : ((start b).run steps).Crash content) (path : String) (openCalls : OpenCalls)
    (r : WalReader) (hread : WalReader.openPath path content openCalls = .ok r) :
    let s := (start b).run steps
    ∃ (status : Status) (values more : List α),
      Recovers path content openCalls status values ∧
      values.map some = s.consumed ++ s.queued ++ more.map some ∧
      more.length ≤ 1 ∧
      (content = s.writer.file.content → status = .ok ∧
        (more = s.inFlight ∨ ∃ value, ((start b).failed steps).getLast? = some value ∧ more = [value])) := by
  intro s
  obtain ⟨hserving, hbroker, hzeros⟩ := serving_openConfig hopen
  obtain ⟨lost, h⟩ := (logged_start hserving hbroker hzeros).run steps
  obtain ⟨records, hinv⟩ := h.inv
  obtain ⟨status, more, hrecovers, hlen, hmore⟩ := h.recovers_crash hcrash hread
  refine ⟨status, _, more, hrecovers, ?_, hlen, hmore⟩
  rw [hinv.consumed_append_queued, List.map_append]

def smallBroker : PersistentBroker .least UInt8 :=
  (({} : PersistentBroker .least UInt8).openConfig smallConfig ⟨some 3, true, some 4096⟩).2

def tornSeven : FileContent := smallBroker.writer.torn (messageView (7 : UInt8) 0) 5 20

def failedSeven : List (SessionStep UInt8) := halfPublished.take 2 ++ [.producer (.append 5 false)]

theorem crash_recovery_seven :
    ({} : PersistentBroker .least UInt8).openConfig smallConfig ⟨some 3, true, some 4096⟩ = (.ok, smallBroker) ∧
      (∃ r : WalReader,
        ((start smallBroker).run (halfPublished.take 2)).Crash tornSeven ∧
        WalReader.openPath "aether.wal" tornSeven ⟨some 4, true, some 8192⟩ = .ok r ∧
        ∃ (status : Status) (values : List UInt8),
          Recovers "aether.wal" tornSeven ⟨some 4, true, some 8192⟩ status values ∧ values.length ≤ 1) ∧
      (start smallBroker).failed failedSeven = [7] ∧
      ∃ values : List UInt8,
        Recovers "aether.wal" ((start smallBroker).run failedSeven).writer.file.content ⟨some 4, true, some 8192⟩ .ok
          values ∧
        (values = [] ∨ values = [7]) := by
  have hopen : ({} : PersistentBroker .least UInt8).openConfig smallConfig ⟨some 3, true, some 4096⟩ =
    (.ok, smallBroker) := rfl
  have hfailed : (start smallBroker).failed failedSeven = [7] := rfl
  refine ⟨hopen, ?_, hfailed, ?_⟩
  · have hcrash : ((start smallBroker).run (halfPublished.take 2)).Crash tornSeven :=
      .copying rfl (by decide +kernel) 5 (by decide)
    refine ⟨_, hcrash, rfl, ?_⟩
    obtain ⟨status, values, more, hrecovers, hvalues, hmore, -⟩ := crash_recovery smallConfig _ _ hopen
      (halfPublished.take 2) _ hcrash "aether.wal" ⟨some 4, true, some 8192⟩ _ rfl
    refine ⟨status, values, hrecovers, ?_⟩
    have hnone : ((start smallBroker).run (halfPublished.take 2)).consumed ++
      ((start smallBroker).run (halfPublished.take 2)).queued = [] := rfl
    rw [hnone, List.nil_append] at hvalues
    have hlen := congrArg List.length hvalues
    rw [List.length_map, List.length_map] at hlen
    exact hlen.trans_le hmore
  · obtain ⟨status, values, more, hrecovers, hvalues, -, hbetween⟩ := crash_recovery smallConfig _ _ hopen
      failedSeven _ .between "aether.wal" ⟨some 4, true, some 8192⟩ _ rfl
    obtain ⟨rfl, hmore⟩ := hbetween rfl
    have hnone : ((start smallBroker).run failedSeven).consumed ++ ((start smallBroker).run failedSeven).queued =
      [] := rfl
    rw [hnone, List.nil_append] at hvalues
    obtain rfl : values = more := List.map_injective_iff.mpr (Option.some_injective UInt8) hvalues
    refine ⟨values, hrecovers, hmore.imp id ?_⟩
    rintro ⟨value, hvalue, rfl⟩
    rw [hfailed, List.getLast?_singleton, Option.some.injEq] at hvalue
    rw [hvalue]

end Session
end AetherStream.PersistentBroker
