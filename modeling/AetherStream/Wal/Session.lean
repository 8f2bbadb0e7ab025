import AetherStream.Wal.RoundTrip

/-! One reader used over a whole session: calls of `next`, replays by any visitors, which may
stop at any record, and resets. The records come out in the order of a single replay. -/

namespace AetherStream.Wal
open Basis

/-- What a visitor does with a run of records: the status it stopped with, if it did, the
records it was shown, and what it is left with. -/
structure Visit (σ : Type*) where
  stop : Option Status := none
  shown : List WalRecordView := []
  state : σ

section Visits
variable {σ : Type*} (visitor : σ → WalRecordView → Status × σ)

def visits : σ → List WalRecordView → Visit σ
  | s, [] => { state := s }
  | s, view :: views =>
    let visited := visitor s view
    if !visited.1.isOk then ⟨some visited.1, [view], visited.2⟩
    else
      let rest := visits visited.2 views
      { rest with shown := view :: rest.shown }

def recording (s : σ × List WalRecordView) (view : WalRecordView) : Status × σ × List WalRecordView :=
  ((visitor s.1 view).1, (visitor s.1 view).2, s.2 ++ [view])

variable {visitor}

theorem visits_cons_of_isOk {s : σ} {view : WalRecordView} (h : (visitor s view).1.isOk = true)
    (views : List WalRecordView) :
    visits visitor s (view :: views) =
      { visits visitor (visitor s view).2 views with
        shown := view :: (visits visitor (visitor s view).2 views).shown } := by
  simp [visits, h]

theorem visits_cons_of_not_isOk {s : σ} {view : WalRecordView} (h : (visitor s view).1.isOk = false)
    (views : List WalRecordView) :
    visits visitor s (view :: views) = ⟨some (visitor s view).1, [view], (visitor s view).2⟩ := by
  simp [visits, h]

variable (visitor) in
theorem prefix_shown (s : σ) (views : List WalRecordView) : (visits visitor s views).shown <+: views := by
  induction views generalizing s with
  | nil => exact List.prefix_rfl
  | cons view views ih =>
    cases h : (visitor s view).1.isOk with
    | false =>
      rw [visits_cons_of_not_isOk h]
      exact List.prefix_append [view] views
    | true =>
      rw [visits_cons_of_isOk h]
      exact List.cons_prefix_cons.mpr ⟨rfl, ih _⟩

theorem shown_of_stop_eq_none {s : σ} {views : List WalRecordView} (h : (visits visitor s views).stop = none) :
    (visits visitor s views).shown = views := by
  induction views generalizing s with
  | nil => rfl
  | cons view views ih =>
    cases hok : (visitor s view).1.isOk with
    | false =>
      rw [visits_cons_of_not_isOk hok] at h
      contradiction
    | true =>
      rw [visits_cons_of_isOk hok] at h ⊢
      exact congrArg (view :: ·) (ih h)

theorem not_isOk_of_stop {s : σ} {views : List WalRecordView} {status : Status}
    (h : (visits visitor s views).stop = some status) : status.isOk = false := by
  induction views generalizing s with
  | nil => contradiction
  | cons view views ih =>
    cases hok : (visitor s view).1.isOk with
    | false =>
      rw [visits_cons_of_not_isOk hok] at h
      rwa [← Option.some.inj h]
    | true =>
      rw [visits_cons_of_isOk hok] at h
      exact ih h

theorem visits_recording (s : σ) (seen views : List WalRecordView) :
    visits (recording visitor) (s, seen) views =
      ⟨(visits visitor s views).stop, (visits visitor s views).shown,
        ((visits visitor s views).state, seen ++ (visits visitor s views).shown)⟩ := by
  induction views generalizing s seen with
  | nil => simp [visits]
  | cons view views ih =>
    have hstatus : (recording visitor (s, seen) view).1 = (visitor s view).1 := rfl
    have hstate : (recording visitor (s, seen) view).2 = ((visitor s view).2, seen ++ [view]) := rfl
    cases h : (visitor s view).1.isOk with
    | false => rw [visits_cons_of_not_isOk h, visits_cons_of_not_isOk (hstatus ▸ h), hstatus, hstate]
    | true =>
      rw [visits_cons_of_isOk h, visits_cons_of_isOk (hstatus ▸ h), hstate, ih, List.append_assoc,
        List.singleton_append]

end Visits

namespace WalReader
variable {r : WalReader} {record : Record} {records done more : List Record} {tail : List UInt8}

structure Ahead (r : WalReader) (records : List Record) (tail : List UInt8) : Prop where
  ready : r.Ready
  splits : framing.Splits r.rest records tail
  stuck : recordAt tail = none

theorem Ready.exists_ahead (h : r.Ready) : ∃ records tail, r.Ahead records tail := by
  obtain ⟨records, tail, hsplit, hstuck⟩ := framing.exists_splits r.rest
  exact ⟨records, tail, h, hsplit, hstuck⟩

theorem Ahead.next_cons (h : r.Ahead (record :: records) tail) :
    r.next = (.ok ⟨record.header, record.payload, r.currentOffset⟩, r.advance record) ∧
      (r.advance record).Ahead records tail := by
  obtain ⟨hready, hsplit, hstuck⟩ := h
  cases hsplit with
  | more hframe hrest =>
    obtain ⟨hready', hrest'⟩ := advance_of_record hready hframe
    exact ⟨next_of_record hready hframe, hready', hrest' ▸ hrest, hstuck⟩

theorem Ahead.next_nil (h : r.Ahead [] tail) :
    ∃ status, r.next = (.error status, r) ∧
      ((status.code = .empty ∧ CleanTail tail) ∨ (status.code = .corruptedRecord ∧ ¬ CleanTail tail)) := by
  obtain ⟨hready, hsplit, hstuck⟩ := h
  cases hsplit
  exact next_of_stuck hready hstuck

theorem Ahead.advance (h : r.Ahead (done ++ more) tail) : (done.foldl advance r).Ahead more tail := by
  induction done generalizing r with
  | nil => exact h
  | cons record done ih => exact ih h.next_cons.2

theorem Ahead.length_le (h : r.Ahead records tail) : 40 * records.length + tail.length ≤ r.rest.length := by
  induction records generalizing r with
  | nil =>
    obtain ⟨-, hsplit, -⟩ := h
    cases hsplit
    simp
  | cons record records ih =>
    obtain ⟨hready, hsplit, hstuck⟩ := h
    cases hsplit with
    | more hframe hrest =>
      obtain ⟨hready', hrest'⟩ := advance_of_record hready hframe
      have htail := ih ⟨hready', hrest' ▸ hrest, hstuck⟩
      obtain ⟨-, -, hn, hle, -, -⟩ := recordAt_eq_some.mp hframe
      rw [hrest', List.length_drop] at htail
      rw [List.length_cons]
      omega

theorem length_rest_le (r : WalReader) : r.rest.length ≤ r.file.bytes.length := by
  simp [rest]

theorem next_of_not_ready (h : ¬ r.Ready) : ∃ status, r.next = (.error status, r) := by
  cases hvalid : r.valid with
  | false =>
    refine ⟨Expected.normalizeExpectedError ⟨.invalidArgument, "wal reader is not open"⟩, ?_⟩
    simp [next, hvalid, Expected.ofStatus]
  | true =>
    have hle : r.file.size ≤ r.currentOffset := by
      rw [UInt64.le_iff_toNat_le, ← MmapFile.length_bytes hvalid]
      exact le_of_lt (Nat.lt_of_not_le fun hle => h ⟨hvalid, hle⟩)
    refine ⟨Expected.normalizeExpectedError ⟨.empty, ""⟩, ?_⟩
    simp [next, hvalid, hle, Expected.ofStatus]

def endStatus (r : WalReader) : Status :=
  match r.next.1 with
  | .ok _ => .ok
  | .error status => if status.code = .empty then .ok else status

theorem Ahead.endStatus_cases (h : r.Ahead [] tail) :
    (r.endStatus = .ok ∧ CleanTail tail) ∨ (r.endStatus.code = .corruptedRecord ∧ ¬ CleanTail tail) := by
  obtain ⟨status, hnext, ⟨hc, hclean⟩ | ⟨hc, hclean⟩⟩ := h.next_nil
  · exact Or.inl ⟨by simp [endStatus, hnext, hc], hclean⟩
  · exact Or.inr ⟨by simp [endStatus, hnext, hc], hclean⟩

section Replay
variable {σ : Type*} (visitor : σ → WalRecordView → Status × σ)

theorem Ahead.replayLoop_eq (h : r.Ahead records tail) (s : σ) {fuel : Nat} (hfuel : records.length < fuel) :
    replayLoop visitor fuel r s =
      let visit := visits visitor s (viewsFrom r.currentOffset records)
      some (visit.stop.getD (records.foldl WalReader.advance r).endStatus,
        (records.take visit.shown.length).foldl WalReader.advance r, visit.state) := by
  induction records generalizing r s fuel with
  | nil =>
    obtain ⟨status, hnext, -⟩ := h.next_nil
    obtain ⟨fuel, rfl⟩ := Nat.exists_eq_add_one_of_ne_zero (Nat.ne_of_gt hfuel)
    simp only [replayLoop, hnext, viewsFrom, visits, endStatus, Option.getD_none, List.foldl_nil, List.take_nil]
  | cons record records ih =>
    obtain ⟨hnext, hahead⟩ := h.next_cons
    obtain ⟨fuel, rfl⟩ := Nat.exists_eq_add_one_of_ne_zero (Nat.ne_of_gt (Nat.zero_lt_of_lt hfuel))
    rw [replayLoop, hnext, viewsFrom]
    dsimp only
    cases hok : (visitor s ⟨record.header, record.payload, r.currentOffset⟩).1.isOk with
    | false =>
      rw [visits_cons_of_not_isOk hok]
      simp
    | true =>
      rw [visits_cons_of_isOk hok, if_neg (by simp), ih hahead _ (by simpa using hfuel)]
      rfl

theorem isSome_replayLoop (r : WalReader) (s : σ) {fuel : Nat} (hfuel : r.file.bytes.length / 40 < fuel) :
    (replayLoop visitor fuel r s).isSome = true := by
  by_cases hready : r.Ready
  · obtain ⟨records, tail, hahead⟩ := hready.exists_ahead
    have hle := hahead.length_le
    have hrest := r.length_rest_le
    rw [hahead.replayLoop_eq visitor s (by omega)]
    rfl
  · obtain ⟨status, hnext⟩ := next_of_not_ready hready
    obtain ⟨fuel, rfl⟩ := Nat.exists_eq_add_one_of_ne_zero (Nat.ne_of_gt (Nat.zero_lt_of_lt hfuel))
    simp [replayLoop, hnext]

/-- `replay`: the loop ends, since a file has room for so many headers only. -/
def replay (r : WalReader) (s : σ) : Status × WalReader × σ :=
  (replayLoop visitor (r.file.bytes.length / 40 + 1) r s).get (isSome_replayLoop visitor r s (Nat.lt_succ_self _))

theorem replayLoop_eq_replay (r : WalReader) (s : σ) {fuel : Nat} (hfuel : r.file.bytes.length / 40 < fuel) :
    replayLoop visitor fuel r s = some (r.replay visitor s) :=
  replayLoop_mono (Option.some_get _).symm hfuel

theorem Ahead.replay_eq (h : r.Ahead records tail) (s : σ) :
    r.replay visitor s =
      let visit := visits visitor s (viewsFrom r.currentOffset records)
      (visit.stop.getD (records.foldl WalReader.advance r).endStatus,
        (records.take visit.shown.length).foldl WalReader.advance r, visit.state) := by
  have hle := h.length_le
  have hrest := r.length_rest_le
  have hloop := replayLoop_eq_replay visitor r s (Nat.lt_succ_self _)
  rw [h.replayLoop_eq visitor s (by omega)] at hloop
  exact (Option.some.inj hloop).symm

end Replay

theorem visits_collect (views seen : List WalRecordView) :
    visits collect seen views = ⟨none, views, seen ++ views⟩ := by
  induction views generalizing seen with
  | nil => simp [visits]
  | cons view views ih =>
    have hok : (collect seen view).1.isOk = true := rfl
    rw [visits_cons_of_isOk hok, ih]
    simp [collect]

theorem Ahead.replays (h : r.Ahead records tail) :
    r.Replays (records.foldl WalReader.advance r).endStatus (viewsFrom r.currentOffset records) := by
  refine ⟨records.length + 1, (records.take (viewsFrom r.currentOffset records).length).foldl WalReader.advance r,
    fun fuel hfuel => ?_⟩
  rw [h.replayLoop_eq collect [] hfuel, visits_collect]
  rfl

structure Fresh (r : WalReader) : Prop where
  ready : r.Ready
  currentOffset : r.currentOffset = 0
  recordsRead : r.recordsRead = 0

theorem fresh_of_openPath {path : String} {content : FileContent} {calls : OpenCalls}
    (h : openPath path content calls = .ok r) : r.Fresh := by
  obtain ⟨hready, hoffset, -⟩ := ready_of_openPath h
  refine ⟨hready, hoffset, ?_⟩
  unfold openPath at h
  split at h
  · contradiction
  · cases h
    rfl

theorem viewsFrom_append (r : WalReader) (done more : List Record) :
    viewsFrom r.currentOffset (done ++ more) =
      viewsFrom r.currentOffset done ++ viewsFrom (done.foldl advance r).currentOffset more := by
  induction done generalizing r with
  | nil => rfl
  | cons record done ih => exact congrArg (List.cons _) (ih (r.advance record))

theorem viewsFrom_take (offset : UInt64) (records : List Record) (k : Nat) :
    viewsFrom offset (records.take k) = (viewsFrom offset records).take k := by
  induction records generalizing offset k with
  | nil => simp [viewsFrom]
  | cons record records ih =>
    cases k with
    | zero => rfl
    | succ k => exact congrArg (List.cons _) (ih _ k)

inductive Tiles : Nat → List WalRecordView → Nat → Prop
  | nil (n : Nat) : Tiles n [] n
  | cons {view : WalRecordView} {views : List WalRecordView} {stop : Nat}
      (length : view.payload.length = view.header.payloadSize.toNat)
      (rest : Tiles (view.offset.toNat + (40 + view.header.payloadSize.toNat)) views stop) :
      Tiles view.offset.toNat (view :: views) stop

theorem Tiles.le_offset {start stop : Nat} {views : List WalRecordView} (h : Tiles start views stop) :
    ∀ view ∈ views, start ≤ view.offset.toNat := by
  induction h with
  | nil => simp
  | cons _ _ ih =>
    rintro view (_ | ⟨_, hview⟩)
    · exact le_rfl
    · have := ih view hview
      omega

theorem Tiles.pairwise {start stop : Nat} {views : List WalRecordView} (h : Tiles start views stop) :
    views.Pairwise fun view view' => view.offset < view'.offset := by
  induction h with
  | nil => exact .nil
  | cons _ hrest ih =>
    refine .cons (fun view hview => ?_) ih
    have := hrest.le_offset view hview
    rw [UInt64.lt_iff_toNat_lt]
    omega

theorem Ahead.tiles (h : r.Ahead (done ++ more) tail) :
    Tiles r.currentOffset.toNat (viewsFrom r.currentOffset done)
      (done.foldl WalReader.advance r).currentOffset.toNat := by
  induction done generalizing r with
  | nil => exact .nil _
  | cons record done ih =>
    have hrest := ih h.next_cons.2
    obtain ⟨hready, hsplit, -⟩ := h
    cases hsplit with
    | more hframe _ =>
      obtain ⟨-, -, rfl, hle, hpayload, -⟩ := recordAt_eq_some.mp hframe
      have hlength : record.payload.length = record.header.payloadSize.toNat := by
        rw [hpayload, List.length_take, List.length_drop]
        omega
      rw [toNat_currentOffset_advance hready hframe] at hrest
      exact Tiles.cons (show (⟨record.header, record.payload, r.currentOffset⟩ : WalRecordView).payload.length = _
        from hlength) hrest

end WalReader

inductive ReaderCall (σ : Type*) where
  | next
  | replay (visitor : σ → WalRecordView → Status × σ) (start : σ)
  | reset

def ReaderCall.isReset {σ : Type*} : ReaderCall σ → Bool
  | reset => true
  | _ => false

structure Session where
  reader : WalReader
  delivered : List WalRecordView := []

namespace Session
variable {σ : Type*}

def step (s : Session) : ReaderCall σ → Session
  | .next =>
    match s.reader.next with
    | (.ok view, r) => ⟨r, s.delivered ++ [view]⟩
    | (.error _, r) => ⟨r, s.delivered⟩
  | .replay visitor start =>
    let (_, r, _, delivered) := s.reader.replay (recording visitor) (start, s.delivered)
    ⟨r, delivered⟩
  | .reset => ⟨s.reader.reset.2, []⟩

def run (s : Session) (calls : List (ReaderCall σ)) : Session := calls.foldl step s

theorem run_append_cons (s : Session) (before : List (ReaderCall σ)) (c : ReaderCall σ) (after : List (ReaderCall σ)) :
    s.run (before ++ c :: after) = ((s.run before).step c).run after := by
  rw [run, List.foldl_append, List.foldl_cons]
  rfl

structure Through (r : WalReader) (done : List Record) (s : Session) : Prop where
  reader : s.reader = done.foldl WalReader.advance r
  delivered : s.delivered = viewsFrom r.currentOffset done

variable {r : WalReader} {record : Record} {all done more : List Record} {tail : List UInt8} {s : Session}

theorem through_nil (r : WalReader) : Through r [] ⟨r, []⟩ := ⟨rfl, rfl⟩

section Step
variable (h : Through r done s)
include h

theorem Through.extend (more : List Record) (k : Nat) :
    Through r (done ++ more.take k)
      ⟨(more.take k).foldl WalReader.advance s.reader,
        s.delivered ++ (viewsFrom s.reader.currentOffset more).take k⟩ := by
  refine ⟨?_, ?_⟩
  · rw [h.reader, List.foldl_append]
  · rw [h.delivered, h.reader, WalReader.viewsFrom_append, WalReader.viewsFrom_take]

theorem Through.ahead (hahead : r.Ahead (done ++ more) tail) : s.reader.Ahead more tail := by
  rw [h.reader]
  exact hahead.advance

theorem Through.step_next (hahead : r.Ahead (done ++ more) tail) :
    Through r (done ++ more.take 1) (s.step (.next : ReaderCall σ)) := by
  have hext := h.extend more 1
  have hcursor := h.ahead hahead
  cases more with
  | nil =>
    obtain ⟨status, hnext, -⟩ := hcursor.next_nil
    simpa [step, hnext, viewsFrom] using hext
  | cons record more =>
    rw [step, hcursor.next_cons.1]
    exact hext

theorem Through.step_replay (hahead : r.Ahead (done ++ more) tail) (visitor : σ → WalRecordView → Status × σ)
    (start : σ) :
    Through r
      (done ++ more.take (visits visitor start (viewsFrom s.reader.currentOffset more)).shown.length)
      (s.step (.replay visitor start)) := by
  have hshown := prefix_shown visitor start (viewsFrom s.reader.currentOffset more)
  have hext := h.extend more (visits visitor start (viewsFrom s.reader.currentOffset more)).shown.length
  rw [step, (h.ahead hahead).replay_eq, visits_recording]
  rwa [← List.prefix_iff_eq_take.mp hshown] at hext

theorem Through.step_reset (hfresh : r.Fresh) : s.step (.reset : ReaderCall σ) = ⟨r, []⟩ := by
  have hfile : s.reader.file = r.file := by rw [h.reader, WalReader.file_foldl_advance]
  have hvalid : s.reader.valid = true := by rw [WalReader.valid, hfile]; exact hfresh.ready.valid
  obtain ⟨-, hoffset, hread⟩ := hfresh
  cases r
  simp_all [step, WalReader.reset]

end Step

section Run
variable (hfresh : r.Fresh) (hahead : r.Ahead all tail)
include hfresh hahead

theorem Through.step {k : Nat} (h : Through r (all.take k) s) (c : ReaderCall σ) :
    ∃ k', Through r (all.take k') (s.step c) ∧ (c.isReset = false → k ≤ k') := by
  have hahead' : r.Ahead (all.take k ++ all.drop k) tail := by rwa [List.take_append_drop]
  cases c with
  | next =>
    have hnext := h.step_next (σ := σ) hahead'
    rw [← List.take_add] at hnext
    exact ⟨k + 1, hnext, fun _ => Nat.le_succ k⟩
  | replay visitor start =>
    have hreplay := h.step_replay hahead' visitor start
    rw [← List.take_add] at hreplay
    exact ⟨_, hreplay, fun _ => Nat.le_add_right k _⟩
  | reset =>
    rw [h.step_reset hfresh]
    exact ⟨0, through_nil r, fun hc => Bool.noConfusion hc⟩

theorem Through.run {k : Nat} (h : Through r (all.take k) s) (cs : List (ReaderCall σ)) :
    ∃ k', Through r (all.take k') (s.run cs) ∧ ((∀ c ∈ cs, c.isReset = false) → k ≤ k') := by
  induction cs generalizing s k with
  | nil => exact ⟨k, h, fun _ => le_rfl⟩
  | cons c cs ih =>
    obtain ⟨k₁, hstep, hle⟩ := h.step hfresh hahead c
    obtain ⟨k₂, hrun, hle'⟩ := ih hstep
    exact ⟨k₂, hrun, fun hc => (hle (hc c (by simp))).trans (hle' fun c' hc' => hc c' (by simp [hc']))⟩

theorem exists_through (cs : List (ReaderCall σ)) : ∃ k, Through r (all.take k) (run ⟨r, []⟩ cs) := by
  obtain ⟨k, hrun, -⟩ := Through.run hfresh hahead (k := 0) (through_nil r) cs
  exact ⟨k, hrun⟩

omit hfresh hahead in
theorem Through.delivered_eq {k : Nat} (h : Through r (all.take k) s) :
    s.delivered = (viewsFrom r.currentOffset all).take k := by
  rw [h.delivered, WalReader.viewsFrom_take]

theorem Through.delivered_of_replay {k : Nat} (h : Through r (all.take k) s) {visitor : σ → WalRecordView → Status × σ}
    {start : σ} (hok : (s.reader.replay visitor start).1.isOk = true) {cs : List (ReaderCall σ)}
    (hcs : ∀ c ∈ cs, c.isReset = false) :
    (s.run (.replay visitor start :: cs)).delivered = viewsFrom r.currentOffset all := by
  have hahead' : r.Ahead (all.take k ++ all.drop k) tail := by rwa [List.take_append_drop]
  have hstop : (visits visitor start (viewsFrom s.reader.currentOffset (all.drop k))).stop = none := by
    rw [(h.ahead hahead').replay_eq] at hok
    cases hstop : (visits visitor start (viewsFrom s.reader.currentOffset (all.drop k))).stop with
    | none => rfl
    | some status => simp [hstop, not_isOk_of_stop hstop] at hok
  have hreplay := h.step_replay hahead' visitor start
  rw [shown_of_stop_eq_none hstop, length_viewsFrom, List.length_drop, ← List.take_add] at hreplay
  obtain ⟨k', hrun, hle⟩ := hreplay.run hfresh hahead cs
  have hlong := hle hcs
  refine (hrun.delivered_eq).trans (List.take_of_length_le ?_)
  rw [length_viewsFrom]
  omega

end Run

/-- However a replay is interrupted and whatever it is mixed with, the records come once and in
the order of one uninterrupted replay, to the last one if a replay returns `ok`; and a reset
starts over. -/
theorem interrupted_replay {path : String} {content : FileContent} {calls : OpenCalls}
    (hopen : WalReader.openPath path content calls = .ok r) :
    ∃ status views, r.Replays status views ∧ (views.Pairwise fun view view' => view.offset < view'.offset) ∧
      (∀ cs : List (ReaderCall σ), (run ⟨r, []⟩ cs).delivered <+: views) ∧
      (∀ (before after : List (ReaderCall σ)) (visitor : σ → WalRecordView → Status × σ) (start : σ),
        (∀ c ∈ after, c.isReset = false) → ((run ⟨r, []⟩ before).reader.replay visitor start).1.isOk = true →
        (run ⟨r, []⟩ (before ++ .replay visitor start :: after)).delivered = views) ∧
      ∀ before after : List (ReaderCall σ), run ⟨r, []⟩ (before ++ .reset :: after) = run ⟨r, []⟩ after := by
  have hfresh := WalReader.fresh_of_openPath hopen
  obtain ⟨all, tail, hahead⟩ := hfresh.ready.exists_ahead
  have htiles : WalReader.Tiles _ (viewsFrom r.currentOffset all) _ :=
    (show r.Ahead (all ++ []) tail by rwa [List.append_nil]).tiles
  refine ⟨_, _, hahead.replays, htiles.pairwise, fun cs => ?_, fun before after visitor start hafter hok => ?_,
    fun before after => ?_⟩
  · obtain ⟨k, h⟩ := exists_through hfresh hahead cs
    rw [h.delivered_eq]
    exact List.take_prefix _ _
  · obtain ⟨k, h⟩ := exists_through hfresh hahead before
    rw [run_append_cons]
    exact h.delivered_of_replay hfresh hahead hok hafter
  · obtain ⟨k, h⟩ := exists_through hfresh hahead before
    rw [run_append_cons, h.step_reset hfresh]

def stopAndGoOn : List (ReaderCall Unit) :=
  [.replay (fun _ _ => (⟨.unknown, "stop"⟩, ())) (), .replay (fun _ _ => (.ok, ())) (), .next]

theorem interrupted_replay_stopAndGoOn :
    ∃ r status views, WalReader.openPath "aether.wal"
        ⟨WalReader.sampleRecord.encode ++ WalReader.sampleRecord.encode, by decide⟩ ⟨some 3, true, some 4096⟩ = .ok r ∧
      r.Replays status views ∧ (run ⟨r, []⟩ stopAndGoOn).delivered = views ∧ views.length = 2 := by
  have hopen : WalReader.openPath "aether.wal"
      ⟨WalReader.sampleRecord.encode ++ WalReader.sampleRecord.encode, by decide⟩ ⟨some 3, true, some 4096⟩ = .ok _ :=
    rfl
  obtain ⟨status, views, hreplays, -, -, hwhole, -⟩ := interrupted_replay (σ := Unit) hopen
  have hdelivered := hwhole [.replay (fun _ _ => (⟨.unknown, "stop"⟩, ())) ()] [.next] (fun _ _ => (.ok, ())) ()
    (by simp [ReaderCall.isReset]) (by decide +kernel)
  refine ⟨_, status, views, hopen, hreplays, hdelivered, ?_⟩
  rw [← hdelivered]
  decide +kernel

end Session
end AetherStream.Wal
