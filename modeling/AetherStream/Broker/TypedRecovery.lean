import AetherStream.Broker.PersistentBroker
import AetherStream.Wal.Session

/-! `PersistentBroker::replay_with_metrics` on any file and with any visitor: which records the
visitor is called on, what is counted and what is returned. -/

namespace AetherStream.PersistentBroker
open Basis Wal
variable {α : Type*} [TriviallyCopyable α] {σ : Type*}

section Visitor
variable (visitor : σ → α → WalRecordHeader → Status × σ)

def callVisitor (s : σ) (view : WalRecordView) : Status × σ :=
  visitor s (TriviallyCopyable.ofBytes view.payload) view.header

def answers : σ → List WalRecordView → List Status
  | _, [] => []
  | s, view :: views => (callVisitor visitor s view).1 :: answers (callVisitor visitor s view).2 views

def visitedBy (s : σ) (views : List WalRecordView) : σ := views.foldl (fun s view => (callVisitor visitor s view).2) s

variable (α) in
def Fits (view : WalRecordView) : Prop := view.payload.length = (TriviallyCopyable.size α).toNat

instance (view : WalRecordView) : Decidable (Fits α view) := by unfold Fits; infer_instance

/-- Records of values that the visitor accepts, but perhaps for the last one. -/
def Recoverable (s : σ) (views : List WalRecordView) : Prop :=
  (∀ view ∈ views, Fits α view) ∧ ∀ answer ∈ (answers visitor s views).dropLast, answer.isOk = true

def recoverable : σ → List WalRecordView → List WalRecordView
  | _, [] => []
  | s, view :: views =>
    if ¬ Fits α view then []
    else if (callVisitor visitor s view).1.isOk then view :: recoverable (callVisitor visitor s view).2 views
    else [view]

variable {visitor} {s : σ} {view : WalRecordView} {views : List WalRecordView}

theorem recoverable_cons_of_isOk (hfits : Fits α view) (hok : (callVisitor visitor s view).1.isOk = true) :
    recoverable visitor s (view :: views) = view :: recoverable visitor (callVisitor visitor s view).2 views := by
  simp [recoverable, hfits, hok]

theorem recoverable_cons_of_not_isOk (hfits : Fits α view) (hok : (callVisitor visitor s view).1.isOk = false) :
    recoverable visitor s (view :: views) = [view] := by
  simp [recoverable, hfits, hok]

theorem recoverable_cons_of_not_fits (hfits : ¬ Fits α view) : recoverable visitor s (view :: views) = [] := by
  simp [recoverable, hfits]

theorem answers_eq_nil_iff : answers visitor s views = [] ↔ views = [] := by
  cases views <;> simp [answers]

theorem recoverable_cons_iff :
    Recoverable visitor s (view :: views) ↔ Fits α view ∧ (views ≠ [] → (callVisitor visitor s view).1.isOk = true) ∧
      Recoverable visitor (callVisitor visitor s view).2 views := by
  by_cases hnil : views = []
  · simp [Recoverable, answers, hnil]
  · have hne : answers visitor (callVisitor visitor s view).2 views ≠ [] := mt answers_eq_nil_iff.mp hnil
    simp only [Recoverable, answers, List.dropLast_cons_of_ne_nil hne, List.forall_mem_cons]
    tauto

theorem recoverable_nil : Recoverable visitor s [] := by
  simp [Recoverable, answers]

variable (visitor s views) in
theorem recoverable_longest :
    recoverable visitor s views <+: views ∧ Recoverable visitor s (recoverable visitor s views) ∧
      ∀ other, other <+: views → Recoverable visitor s other → other <+: recoverable visitor s views := by
  induction views generalizing s with
  | nil =>
    refine ⟨List.prefix_rfl, recoverable_nil, fun other hother _ => ?_⟩
    rwa [recoverable]
  | cons view views ih =>
    obtain ⟨hpre, hrec, hlongest⟩ := ih (callVisitor visitor s view).2
    by_cases hfits : Fits α view
    · cases hok : (callVisitor visitor s view).1.isOk with
      | true =>
        rw [recoverable_cons_of_isOk hfits hok]
        refine ⟨List.cons_prefix_cons.mpr ⟨rfl, hpre⟩, recoverable_cons_iff.mpr ⟨hfits, fun _ => hok, hrec⟩, ?_⟩
        rintro (_ | ⟨view', other⟩) hother hrecother
        · exact List.nil_prefix
        · obtain ⟨rfl, htail⟩ := List.cons_prefix_cons.mp hother
          exact List.cons_prefix_cons.mpr ⟨rfl, hlongest other htail (recoverable_cons_iff.mp hrecother).2.2⟩
      | false =>
        rw [recoverable_cons_of_not_isOk hfits hok]
        refine ⟨List.cons_prefix_cons.mpr ⟨rfl, List.nil_prefix⟩,
          recoverable_cons_iff.mpr ⟨hfits, fun h => absurd rfl h, recoverable_nil⟩, ?_⟩
        rintro (_ | ⟨view', other⟩) hother hrecother
        · exact List.nil_prefix
        · obtain ⟨rfl, -⟩ := List.cons_prefix_cons.mp hother
          obtain ⟨-, hnext, -⟩ := recoverable_cons_iff.mp hrecother
          -- the visitor refused this record, so nothing can follow it
          have hnil : other = [] := by
            by_contra hne
            rw [hok] at hnext
            exact Bool.false_ne_true (hnext hne)
          rw [hnil]
    · rw [recoverable_cons_of_not_fits hfits]
      refine ⟨List.prefix_iff_eq_take.mpr rfl, recoverable_nil, ?_⟩
      rintro (_ | ⟨view', other⟩) hother hrecother
      · exact List.nil_prefix
      · obtain ⟨rfl, -⟩ := List.cons_prefix_cons.mp hother
        exact absurd (recoverable_cons_iff.mp hrecother).1 hfits

def sizeMismatch : Status :=
  ⟨.corruptedRecord, "WAL payload size does not match persistent broker value type"⟩

variable (visitor) in
/-- Why recovery ends with `status` once the visitor was called on `shown`: it refused the last
of them, the next record is of another size, or they were all there are. -/
def Ends (s : σ) (shown views : List WalRecordView) (replayStatus status : Status) : Prop :=
  (∃ answer, (answers visitor s shown).getLast? = some answer ∧ answer.isOk = false ∧ status = answer) ∨
    ((∀ answer ∈ answers visitor s shown, answer.isOk = true) ∧
      ((∃ view rest, views = shown ++ view :: rest ∧ ¬ Fits α view ∧ status = sizeMismatch) ∨
        (shown = views ∧ status = replayStatus)))

theorem Ends.cons {shown : List WalRecordView} {replayStatus status : Status}
    (hok : (callVisitor visitor s view).1.isOk = true)
    (h : Ends visitor (callVisitor visitor s view).2 shown views replayStatus status) :
    Ends visitor s (view :: shown) (view :: views) replayStatus status := by
  rcases h with ⟨answer, hlast, hanswer⟩ | ⟨hall, h⟩
  · refine Or.inl ⟨answer, ?_, hanswer⟩
    rw [answers, List.getLast?_cons, hlast]
    rfl
  · refine Or.inr ⟨List.forall_mem_cons.mpr ⟨hok, hall⟩, ?_⟩
    rcases h with ⟨view', rest, rfl, h⟩ | ⟨rfl, h⟩
    · exact Or.inl ⟨view', rest, rfl, h⟩
    · exact Or.inr ⟨rfl, h⟩

variable (visitor) in
theorem recoveryVisitor_of_not_fits (r : Recovery σ) (hfits : ¬ Fits α view) :
    recoveryVisitor visitor r view =
      (sizeMismatch, { r with counters := r.counters.recordRecoveryFailure, failureRecorded := true }) :=
  if_pos hfits

theorem recoveryVisitor_of_isOk (r : Recovery σ) (hfits : Fits α view)
    (hok : (callVisitor visitor r.visited view).1.isOk = true) :
    recoveryVisitor visitor r view = ((callVisitor visitor r.visited view).1,
      { r with visited := (callVisitor visitor r.visited view).2, counters := r.counters.recordRecoveredRecord }) :=
  (if_neg (not_not.mpr hfits)).trans (if_pos hok)

theorem recoveryVisitor_of_not_isOk (r : Recovery σ) (hfits : Fits α view)
    (hok : (callVisitor visitor r.visited view).1.isOk = false) :
    recoveryVisitor visitor r view = ((callVisitor visitor r.visited view).1,
      ⟨(callVisitor visitor r.visited view).2, r.counters.recordRecoveryFailure, true⟩) :=
  (if_neg (not_not.mpr hfits)).trans (if_neg (Bool.eq_false_iff.mp hok))

end Visitor

variable {visitor : σ → α → WalRecordHeader → Status × σ}

structure Recovered (visitor : σ → α → WalRecordHeader → Status × σ) (s : σ) (counters : BrokerCounters)
    (views : List WalRecordView) (visit : Visit (Recovery σ)) : Prop where
  visited : visit.state.visited = visitedBy visitor s (recoverable visitor s views)
  counters : visit.state.counters =
    counters.recover ((answers visitor s (recoverable visitor s views)).countP Status.isOk) visit.stop.isSome.toNat
  failureRecorded : visit.state.failureRecorded = visit.stop.isSome
  ends : ∀ replayStatus, Ends visitor s (recoverable visitor s views) views replayStatus (visit.stop.getD replayStatus)

variable (visitor) in
theorem recovered_visits (s : σ) (counters : BrokerCounters) (views : List WalRecordView) :
    Recovered visitor s counters views
      (visits (recoveryVisitor visitor) { visited := s, counters := counters } views) := by
  induction views generalizing s counters with
  | nil =>
    refine ⟨rfl, counters.recover_zero.symm, rfl, fun _ => Or.inr ⟨?_, Or.inr ⟨rfl, rfl⟩⟩⟩
    simp [recoverable, answers]
  | cons view views ih =>
    by_cases hfits : Fits α view
    · cases hok : (callVisitor visitor s view).1.isOk with
      | true =>
        have hcall := recoveryVisitor_of_isOk { visited := s, counters := counters } hfits hok
        obtain ⟨hvisited, hcounters, hflag, hends⟩ := ih (callVisitor visitor s view).2 counters.recordRecoveredRecord
        rw [visits_cons_of_isOk (by rw [hcall]; exact hok), hcall]
        refine ⟨?_, ?_, hflag, fun replayStatus => ?_⟩
        · rw [recoverable_cons_of_isOk hfits hok]
          exact hvisited
        · rw [recoverable_cons_of_isOk hfits hok, answers, List.countP_cons_of_pos hok]
          exact hcounters.trans (counters.recover_recordRecoveredRecord _ _)
        · rw [recoverable_cons_of_isOk hfits hok]
          exact (hends replayStatus).cons hok
      | false =>
        have hcall := recoveryVisitor_of_not_isOk { visited := s, counters := counters } hfits hok
        rw [visits_cons_of_not_isOk (by rw [hcall]; exact hok), hcall]
        refine ⟨?_, ?_, rfl, fun replayStatus => Or.inl ⟨(callVisitor visitor s view).1, ?_, hok, rfl⟩⟩
        · rw [recoverable_cons_of_not_isOk hfits hok]
          rfl
        · rw [recoverable_cons_of_not_isOk hfits hok, answers, List.countP_cons_of_neg (by simp [hok])]
          exact counters.recordRecoveryFailure_eq
        · rw [recoverable_cons_of_not_isOk hfits hok]
          rfl
    · have hcall := recoveryVisitor_of_not_fits visitor { visited := s, counters := counters } hfits
      rw [visits_cons_of_not_isOk (by rw [hcall]; rfl), hcall]
      refine ⟨?_, ?_, rfl, fun replayStatus => Or.inr ⟨?_, Or.inl ⟨view, views, ?_, hfits, rfl⟩⟩⟩
      · rw [recoverable_cons_of_not_fits hfits]
        rfl
      · rw [recoverable_cons_of_not_fits hfits]
        exact counters.recordRecoveryFailure_eq
      · rw [recoverable_cons_of_not_fits hfits]
        simp [answers]
      · rw [recoverable_cons_of_not_fits hfits]
        rfl

theorem isOk_of_openPath {path : String} {content : FileContent} {calls : OpenCalls} {status : Status}
    (h : WalReader.openPath path content calls = .error status) : status.isOk = false := by
  unfold WalReader.openPath at h
  split at h
  · exact Expected.isOk_of_ofStatus h
  · contradiction

/-- Typed recovery ends on every file with every visitor. Of the records that the file starts
with, the visitor is called on the longest run it can be called on, each accepted record is
counted once, and one failure is counted exactly if the returned status is not `ok`. -/
theorem typed_recovery (path : String) (content : FileContent) (calls : OpenCalls)
    (visitor : σ → α → WalRecordHeader → Status × σ) (visited : σ) (counters : BrokerCounters) :
    ∃ fuel₀ status visited' recovered,
      (∀ fuel, fuel₀ ≤ fuel → replayWithMetrics path content calls visitor visited counters fuel =
        some (status, visited', counters.recover recovered (if status.isOk then 0 else 1))) ∧
      match WalReader.openPath path content calls with
      | .error openStatus => status = openStatus ∧ status.isOk = false ∧ visited' = visited ∧ recovered = 0
      | .ok reader => ∃ chunks records tail replayStatus views shown,
          (IsLog content.bytes chunks records tail ∧
            ∀ chunks' records' tail', IsLog content.bytes chunks' records' tail' → records' <+: records) ∧
          views = viewsFrom 0 records ∧
          reader.Replays replayStatus views ∧
          (replayStatus = .ok ∧ CleanTail tail ∨ replayStatus.code = .corruptedRecord ∧ ¬ CleanTail tail) ∧
          (shown <+: views ∧ Recoverable visitor visited shown ∧
            ∀ other, other <+: views → Recoverable visitor visited other → other <+: shown) ∧
          visited' = visitedBy visitor visited shown ∧
          recovered = (answers visitor visited shown).countP Status.isOk ∧
          Ends visitor visited shown views replayStatus status := by
  cases hopen : WalReader.openPath path content calls with
  | error status =>
    have hbad := isOk_of_openPath hopen
    refine ⟨0, status, visited, 0, fun fuel _ => ?_, rfl, hbad, rfl, rfl⟩
    rw [replayWithMetrics, hopen, hbad]
    exact congrArg (fun c => some (status, visited, c)) counters.recordRecoveryFailure_eq
  | ok reader =>
    obtain ⟨hready, hzero, hrest⟩ := WalReader.ready_of_openPath hopen
    obtain ⟨records, tail, hahead⟩ := hready.exists_ahead
    obtain ⟨chunks, hlog⟩ := exists_isLog_longest (hrest ▸ hahead.splits) hahead.stuck
    have hending : (records.foldl WalReader.advance reader).Ahead [] tail :=
      (show reader.Ahead (records ++ []) tail by rwa [List.append_nil]).advance
    have hreplays := hahead.replays
    generalize hviews : viewsFrom reader.currentOffset records = views at hreplays
    obtain ⟨hvisited, hcounters, hflag, hends⟩ := recovered_visits visitor visited counters views
    refine ⟨records.length + 1, _, _, _, fun fuel hfuel => ?_, chunks, records, tail, _, views, _, hlog,
      hzero ▸ hviews.symm, hreplays, hending.endStatus_cases, recoverable_longest visitor visited views, rfl, rfl,
      hends _⟩
    rw [replayWithMetrics, hopen]
    dsimp only
    rw [hahead.replayLoop_eq (recoveryVisitor visitor) _ hfuel, hviews]
    dsimp only
    rw [hvisited, hcounters, hflag]
    cases hstop : (visits (recoveryVisitor visitor) { visited := visited, counters := counters } views).stop with
    | some status => simp [not_isOk_of_stop hstop]
    | none =>
      simp only [Option.getD_none, Option.isSome_none, Bool.not_false, Bool.and_true, Bool.toNat_false]
      by_cases hok : (records.foldl WalReader.advance reader).endStatus.isOk = true
      · simp [hok]
      · simp [hok, BrokerCounters.recordRecoveryFailure_recover]

def takeOne (values : List UInt8) (value : UInt8) (_ : WalRecordHeader) : Status × List UInt8 :=
  (⟨.empty, "enough"⟩, values ++ [value])

def twoSamples : FileContent := ⟨[WalReader.sampleRecord, WalReader.sampleRecord].flatMap Record.encode, by decide⟩

theorem typed_recovery_takeOne :
    ∃ fuel₀, ∀ fuel, fuel₀ ≤ fuel →
      replayWithMetrics "aether.wal" twoSamples ⟨some 3, true, some 4096⟩ takeOne [] {} fuel =
        some (⟨.empty, "enough"⟩, [7], ({} : BrokerCounters).recover 0 1) := by
  obtain ⟨fuel₀, status, visited', recovered, hreplay, hresult⟩ :=
    typed_recovery "aether.wal" twoSamples ⟨some 3, true, some 4096⟩ takeOne [] {}
  obtain ⟨chunks, records, tail, replayStatus, views, shown, ⟨-, hlongest⟩, rfl, -, -, ⟨hpre, hrec, hmost⟩, rfl, rfl,
    hends⟩ := hresult
  have hsealed : ∀ r ∈ [WalReader.sampleRecord, WalReader.sampleRecord], r.Sealed := by
    rintro r hr
    obtain rfl : r = WalReader.sampleRecord := by simpa using hr
    exact ⟨⟨rfl, rfl, rfl⟩, rfl, rfl⟩
  have hlog := isLog_encode hsealed []
  rw [List.append_nil] at hlog
  obtain ⟨more, rfl⟩ := hlongest _ _ _ hlog
  obtain ⟨others, rfl⟩ := hmost [⟨WalReader.sampleRecord.header, [7], 0⟩] ⟨_, rfl⟩
    (recoverable_cons_iff.mpr ⟨rfl, fun h => absurd rfl h, recoverable_nil⟩)
  -- nothing is shown behind the record at which the visitor stopped
  obtain rfl : others = [] := by
    by_contra hne
    exact Bool.false_ne_true ((recoverable_cons_iff.mp hrec).2.1 hne)
  rcases hends with ⟨answer, hlast, -, rfl⟩ | ⟨hall, -⟩
  · cases hlast
    exact ⟨fuel₀, hreplay⟩
  · exact absurd (hall _ List.mem_cons_self) (by decide)

end AetherStream.PersistentBroker
