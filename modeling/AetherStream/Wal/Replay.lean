import AetherStream.Wal.Grammar

/-! `WalReader::next` and `replay` against the grammar, on arbitrary file contents. -/

namespace AetherStream.Wal
open Basis

theorem toNat_recordTotalSize (h : WalRecordHeader) :
    (recordTotalSize h).toNat = h.headerSize.toNat + h.payloadSize.toNat := by
  have hs := h.headerSize.toNat_lt
  have hp := h.payloadSize.toNat_lt
  simp only [recordTotalSize, UInt64.toNat_add, UInt16.toNat_toUInt64, UInt32.toNat_toUInt64]
  omega

theorem WellShaped.toNat_recordTotalSize {h : WalRecordHeader} (hs : WellShaped h) :
    (recordTotalSize h).toNat = 40 + h.payloadSize.toNat := by
  rw [Wal.toNat_recordTotalSize, hs.2.2]
  rfl

theorem validateHeaderShape_of_wellShaped {h : WalRecordHeader} (hs : WellShaped h) :
    validateHeaderShape h = .ok := by
  obtain ⟨hm, hv, hz⟩ := hs
  have hmax : ¬ maxPayloadSize < h.payloadSize := by
    rw [UInt32.lt_iff_toNat_lt, show maxPayloadSize.toNat = 2 ^ 32 - 1 from rfl]
    have := h.payloadSize.toNat_lt
    omega
  simp [validateHeaderShape, hm, hv, hz, hmax]

theorem validateHeaderShape_of_not_wellShaped {h : WalRecordHeader} (hs : ¬ WellShaped h) :
    (validateHeaderShape h).code = .corruptedRecord := by
  unfold validateHeaderShape
  split_ifs with hm hv hz hp <;> first | rfl | exact absurd ⟨not_not.mp hm, not_not.mp hv, not_not.mp hz⟩ hs

theorem exists_deserializeHeader {tail : List UInt8} (h : 40 ≤ tail.length) :
    ∃ header, deserializeHeader tail = .ok header := by
  unfold deserializeHeader
  rw [if_neg (by simpa [walRecordHeaderSize] using h)]
  exact ⟨_, rfl⟩

theorem cleanTail_iff_of_header {tail : List UInt8} {header : WalRecordHeader} (hlen : 40 ≤ tail.length)
    (hd : deserializeHeader tail = .ok header) (hzero : ¬ ∀ b ∈ tail, b = 0) :
    CleanTail tail ↔ WellShaped header ∧ tail.length < 40 + header.payloadSize.toNat := by
  constructor
  · intro hclean
    obtain ⟨header', hd', hs, hlt⟩ := hclean.exists_header hlen hzero
    obtain rfl := Except.ok.inj (hd.symm.trans hd')
    exact ⟨hs, hlt⟩
  · rintro ⟨hs, hlt⟩
    exact Or.inr (Or.inr (Or.inr ⟨hlen, header, hd, hs, hlt⟩))

section ReadTail
variable {remaining : UInt64} {tail : List UInt8} (hrem : remaining.toNat = tail.length)
include hrem

theorem lt_headerSize_iff : remaining < walRecordHeaderSize.toUInt64 ↔ tail.length < 40 := by
  rw [UInt64.lt_iff_toNat_lt, hrem]
  rfl

theorem payload_missing_iff {h : WalRecordHeader} (hs : WellShaped h) :
    (recordTotalSize h < h.headerSize.toUInt64 ∨ remaining < recordTotalSize h) ↔
      tail.length < 40 + h.payloadSize.toNat := by
  rw [UInt64.lt_iff_toNat_lt, UInt64.lt_iff_toNat_lt, hs.toNat_recordTotalSize, hrem, hs.2.2]
  show _ < 40 ∨ _ ↔ _
  omega

theorem readTail_of_record {r : Record} {n : Nat} (h : recordAt tail = some (r, n)) :
    readTail remaining tail = .ok (r.header, r.payload) := by
  obtain ⟨hd, hs, rfl, hle, hp, hc⟩ := recordAt_eq_some.mp h
  have hlen := length_le_of_deserializeHeader hd
  have h1 : ¬ remaining < walRecordHeaderSize.toUInt64 := mt (lt_headerSize_iff hrem).mp (by omega)
  have h2 : ¬ (r.header.magic = 0 ∧ isZeroFilled tail = true) := fun hz =>
    not_wellShaped_of_zeros (isZeroFilled_iff.mp hz.2) hd hs
  have h3 := mt (payload_missing_iff hrem hs).mp (by omega)
  have hd' : deserializeHeader (tail.take walRecordHeaderSize.toNat) = .ok r.header := by
    rw [← hd]
    exact deserializeHeader_take hlen
  unfold readTail
  rw [if_neg h1, hd']
  simp only [validateHeaderShape_of_wellShaped hs, Status.isOk_ok, fitsSizeT_eq_true, if_neg h2, if_neg h3,
    Bool.not_true, Bool.false_eq_true, if_false]
  rw [show walRecordHeaderSize.toNat = 40 from rfl, ← hp, validateRecordChecksum, if_neg (by simpa using hc)]

theorem readTail_of_stuck (h : recordAt tail = none) :
    ∃ status, readTail remaining tail = .error status ∧
      ((status.code = .empty ∧ CleanTail tail) ∨ (status.code = .corruptedRecord ∧ ¬ CleanTail tail)) := by
  unfold readTail
  by_cases h1 : remaining < walRecordHeaderSize.toUInt64
  · have hlt := (lt_headerSize_iff hrem).mp h1
    rw [if_pos h1]
    split_ifs <;> exact ⟨_, rfl, Or.inl ⟨rfl, Or.inr (Or.inr (Or.inl hlt))⟩⟩
  have hlen : 40 ≤ tail.length := Nat.not_lt.mp (mt (lt_headerSize_iff hrem).mpr h1)
  obtain ⟨header, hd⟩ := exists_deserializeHeader hlen
  rw [if_neg h1, show walRecordHeaderSize.toNat = 40 from rfl, deserializeHeader_take hlen, hd]
  dsimp only
  by_cases hzero : ∀ b ∈ tail, b = 0
  · have hmagic : header.magic = 0 := by
      rw [magic_of_deserializeHeader hd, readU32Le, readLe_of_isZeroFilled hzero]
      rfl
    rw [if_pos ⟨hmagic, isZeroFilled_iff.mpr hzero⟩]
    exact ⟨_, rfl, Or.inl ⟨rfl, Or.inr (Or.inl hzero)⟩⟩
  rw [if_neg fun hz => hzero (isZeroFilled_iff.mp hz.2)]
  have hclean := cleanTail_iff_of_header hlen hd hzero
  by_cases hs : WellShaped header
  · rw [validateHeaderShape_of_wellShaped hs]
    simp only [Status.isOk_ok, Bool.not_true, Bool.false_eq_true, if_false, fitsSizeT_eq_true]
    by_cases hlt : tail.length < 40 + header.payloadSize.toNat
    · rw [if_pos ((payload_missing_iff hrem hs).mpr hlt)]
      exact ⟨_, rfl, Or.inl ⟨rfl, hclean.mpr ⟨hs, hlt⟩⟩⟩
    · rw [if_neg (mt (payload_missing_iff hrem hs).mp hlt)]
      -- a matching checksum would make it a record
      have hsum : validateRecordChecksum header ((tail.drop 40).take header.payloadSize.toNat) = false := by
        by_contra hv
        have hrec : recordAt tail = some (⟨header, (tail.drop 40).take header.payloadSize.toNat⟩, _) :=
          recordAt_eq_some.mpr ⟨hd, hs, rfl, Nat.not_lt.mp hlt, rfl, by simpa [validateRecordChecksum] using hv⟩
        rw [h] at hrec
        contradiction
      rw [if_pos (by simp [hsum])]
      exact ⟨_, rfl, Or.inr ⟨rfl, fun hc => hlt (hclean.mp hc).2⟩⟩
  · have hcode := validateHeaderShape_of_not_wellShaped hs
    rw [if_pos (by simp [Status.isOk, hcode])]
    exact ⟨_, rfl, Or.inr ⟨hcode, fun hc => hs (hclean.mp hc).1⟩⟩

end ReadTail

def viewsFrom (offset : UInt64) : List Record → List WalRecordView
  | [] => []
  | r :: rs => ⟨r.header, r.payload, offset⟩ :: viewsFrom (offset + recordTotalSize r.header) rs

namespace WalReader

structure Ready (r : WalReader) : Prop where
  valid : r.valid = true
  offset_le : r.currentOffset.toNat ≤ r.file.bytes.length

def rest (r : WalReader) : List UInt8 := r.file.bytes.drop r.currentOffset.toNat

def advance (r : WalReader) (record : Record) : WalReader :=
  { r with currentOffset := r.currentOffset + recordTotalSize record.header, recordsRead := r.recordsRead + 1 }

theorem ready_of_openPath {path : String} {content : FileContent} {calls : OpenCalls} {r : WalReader}
    (h : openPath path content calls = .ok r) : r.Ready ∧ r.currentOffset = 0 ∧ r.rest = content.bytes := by
  unfold openPath at h
  split at h
  · cases h
  · rename_i file hfile
    cases h
    obtain ⟨hvalid, hbytes, -⟩ := MmapFile.openExisting_eq_ok hfile
    exact ⟨⟨hvalid, Nat.zero_le _⟩, rfl, by simp [rest, hbytes]⟩

theorem bytes_of_openPath {path : String} {content : FileContent} {calls : OpenCalls} {r : WalReader}
    (h : openPath path content calls = .ok r) : r.file.bytes = content.bytes := by
  obtain ⟨-, hzero, hrest⟩ := ready_of_openPath h
  rw [← hrest, rest, hzero, UInt64.toNat_zero, List.drop_zero]

section Next
variable {r : WalReader} (hr : r.Ready)
include hr

theorem Ready.toNat_size : r.file.size.toNat = r.file.bytes.length := (MmapFile.length_bytes hr.valid).symm

theorem Ready.toNat_remaining : (r.file.size - r.currentOffset).toNat = r.rest.length := by
  have hle : r.currentOffset ≤ r.file.size := by
    rw [UInt64.le_iff_toNat_le, hr.toNat_size]
    exact hr.offset_le
  rw [UInt64.toNat_sub_of_le _ _ hle, hr.toNat_size, rest, List.length_drop]

theorem next_eq_readTail (hne : r.rest ≠ []) :
    r.next = match readTail (r.file.size - r.currentOffset) r.rest with
      | .error status => (.ofStatus status, r)
      | .ok (header, payload) => (.ok ⟨header, payload, r.currentOffset⟩, r.advance ⟨header, payload⟩) := by
  have hlt : ¬ r.file.size ≤ r.currentOffset := by
    rw [UInt64.le_iff_toNat_le, hr.toNat_size, Nat.not_le]
    simpa [rest] using hne
  have htail : (r.file.bytes.drop r.currentOffset.toNat).take (r.file.size - r.currentOffset).toNat = r.rest := by
    rw [hr.toNat_remaining, ← rest, List.take_length]
  unfold next
  simp only [hr.valid, Bool.not_true, Bool.false_eq_true, if_false, if_neg hlt, fitsSizeT_eq_true, Bool.or_self,
    htail]
  rfl

theorem next_of_record {record : Record} {n : Nat} (hrec : recordAt r.rest = some (record, n)) :
    r.next = (.ok ⟨record.header, record.payload, r.currentOffset⟩, r.advance record) := by
  have hne : r.rest ≠ [] := by
    intro hnil
    have := framing.le_length hrec
    have := framing.pos hrec
    simp_all
  rw [next_eq_readTail hr hne, readTail_of_record hr.toNat_remaining hrec]

theorem toNat_currentOffset_advance {record : Record} {n : Nat} (hrec : recordAt r.rest = some (record, n)) :
    (r.advance record).currentOffset.toNat = r.currentOffset.toNat + (40 + record.header.payloadSize.toNat) := by
  obtain ⟨-, hs, rfl, hle, -, -⟩ := recordAt_eq_some.mp hrec
  have hlt := r.file.length_bytes_lt
  have hoff := hr.offset_le
  rw [rest, List.length_drop] at hle
  simp only [advance, UInt64.toNat_add, hs.toNat_recordTotalSize]
  omega

theorem advance_of_record {record : Record} {n : Nat} (hrec : recordAt r.rest = some (record, n)) :
    (r.advance record).Ready ∧ (r.advance record).rest = r.rest.drop n := by
  have hnew := toNat_currentOffset_advance hr hrec
  have hoff := hr.offset_le
  obtain ⟨-, hs, rfl, hle, -, -⟩ := recordAt_eq_some.mp hrec
  rw [rest, List.length_drop] at hle
  exact ⟨⟨hr.valid, by rw [hnew]; show _ ≤ r.file.bytes.length; omega⟩, by rw [rest, hnew, ← List.drop_drop]; rfl⟩

theorem next_of_stuck (hstuck : recordAt r.rest = none) :
    ∃ status, r.next = (.error status, r) ∧
      ((status.code = .empty ∧ CleanTail r.rest) ∨ (status.code = .corruptedRecord ∧ ¬ CleanTail r.rest)) := by
  by_cases hnil : r.rest = []
  · have hle : r.file.size ≤ r.currentOffset := by
      rw [UInt64.le_iff_toNat_le, hr.toNat_size]
      simpa [rest] using hnil
    refine ⟨⟨.empty, ""⟩, ?_, Or.inl ⟨rfl, Or.inl hnil⟩⟩
    unfold next
    simp only [hr.valid, Bool.not_true, Bool.false_eq_true, if_false, if_pos hle]
    rfl
  · obtain ⟨status, htail, hcode⟩ := readTail_of_stuck hr.toNat_remaining hstuck
    refine ⟨status, ?_, hcode⟩
    rw [next_eq_readTail hr hnil, htail]
    dsimp only
    rw [Expected.ofStatus_of_not_isOk]
    rcases hcode with ⟨hc, -⟩ | ⟨hc, -⟩ <;> simp [Status.isOk, hc]

end Next

variable {r : WalReader} {records : List Record} {tail : List UInt8}

theorem advance_of_splits (hr : r.Ready) (h : framing.Splits r.rest records tail) :
    (records.foldl advance r).Ready ∧ (records.foldl advance r).rest = tail := by
  induction records generalizing r with
  | nil => cases h; exact ⟨hr, rfl⟩
  | cons record records ih =>
    cases h with
    | more hframe hsplit =>
      obtain ⟨hready, hrest⟩ := advance_of_record hr hframe
      exact ih hready (hrest ▸ hsplit)

theorem nexts_of_splits (hr : r.Ready) (h : framing.Splits r.rest records tail) :
    r.nexts records.length = ((viewsFrom r.currentOffset records).map .ok, records.foldl advance r) := by
  induction records generalizing r with
  | nil => rfl
  | cons record records ih =>
    cases h with
    | more hframe hsplit =>
      obtain ⟨hready, hrest⟩ := advance_of_record hr hframe
      simp only [List.length_cons, nexts, next_of_record hr hframe, ih hready (hrest ▸ hsplit)]
      rfl

theorem replayLoop_of_splits {σ : Type*} (visitor : σ → WalRecordView → Status × σ) (hr : r.Ready)
    (h : framing.Splits r.rest records tail) (hstuck : recordAt tail = none) (s : σ)
    (hvisit : ∀ view ∈ viewsFrom r.currentOffset records, ∀ s, (visitor s view).1 = .ok) :
    ∃ status, (∀ fuel, records.length < fuel → replayLoop visitor fuel r s =
        some (status, records.foldl advance r,
          (viewsFrom r.currentOffset records).foldl (fun s view => (visitor s view).2) s)) ∧
      ((status = .ok ∧ CleanTail tail) ∨ (status.code = .corruptedRecord ∧ ¬ CleanTail tail)) := by
  induction records generalizing r s with
  | nil =>
    cases h
    obtain ⟨status, hnext, hcode⟩ := next_of_stuck hr hstuck
    refine ⟨if status.code = .empty then .ok else status, fun fuel hfuel => ?_, ?_⟩
    · obtain ⟨fuel, rfl⟩ := Nat.exists_eq_succ_of_ne_zero (Nat.ne_of_gt hfuel)
      simp only [replayLoop, hnext]
      rfl
    · rcases hcode with ⟨hc, hclean⟩ | ⟨hc, hclean⟩
      · exact Or.inl ⟨by rw [if_pos hc], hclean⟩
      · exact Or.inr ⟨by rw [if_neg (by simp [hc]), hc], hclean⟩
  | cons record records ih =>
    cases h with
    | more hframe hsplit =>
      obtain ⟨hready, hrest⟩ := advance_of_record hr hframe
      have hhead := hvisit _ (List.mem_cons_self ..) s
      obtain ⟨status, hloop, hcode⟩ := ih hready (hrest ▸ hsplit) (visitor s _).2
        fun view hview => hvisit view (List.mem_cons_of_mem _ hview)
      refine ⟨status, fun fuel hfuel => ?_, hcode⟩
      obtain ⟨fuel, rfl⟩ := Nat.exists_eq_succ_of_ne_zero (Nat.ne_of_gt (Nat.zero_lt_of_lt hfuel))
      simp only [replayLoop, next_of_record hr hframe, hhead]
      exact hloop fuel (by simpa using hfuel)

theorem foldl_collect (views seen : List WalRecordView) :
    views.foldl (fun seen view => (collect seen view).2) seen = seen ++ views := by
  induction views generalizing seen with
  | nil => simp
  | cons view views ih => rw [List.foldl_cons, ih, collect, List.append_assoc, List.singleton_append]

/-- Replay with the visitor that accepts everything ends with `status` after `views`. -/
def Replays (r : WalReader) (status : Status) (views : List WalRecordView) : Prop :=
  ∃ fuel₀ final, ∀ fuel, fuel₀ ≤ fuel → replayLoop collect fuel r [] = some (status, final, views)

theorem Replays.unique {status status' : Status} {views views' : List WalRecordView}
    (h : r.Replays status views) (h' : r.Replays status' views') : status = status' ∧ views = views' := by
  obtain ⟨fuel₀, final, hloop⟩ := h
  obtain ⟨fuel₁, final', hloop'⟩ := h'
  have heq := (hloop _ (Nat.le_max_left fuel₀ fuel₁)).symm.trans (hloop' _ (Nat.le_max_right fuel₀ fuel₁))
  simp only [Option.some.injEq, Prod.mk.injEq] at heq
  exact ⟨heq.1, heq.2.2⟩

theorem replays_of_splits (hr : r.Ready) (h : framing.Splits r.rest records tail) (hstuck : recordAt tail = none) :
    ∃ status, r.Replays status (viewsFrom r.currentOffset records) ∧
      ((status = .ok ∧ CleanTail tail) ∨ (status.code = .corruptedRecord ∧ ¬ CleanTail tail)) := by
  obtain ⟨status, hloop, hcode⟩ := replayLoop_of_splits collect hr h hstuck [] fun _ _ _ => rfl
  rw [foldl_collect, List.nil_append] at hloop
  exact ⟨status, ⟨records.length + 1, _, hloop⟩, hcode⟩

theorem replays_of_cleanTail (hr : r.Ready) (h : framing.Splits r.rest records tail) (hclean : CleanTail tail) :
    r.Replays .ok (viewsFrom r.currentOffset records) := by
  obtain ⟨status, hreplays, hcode⟩ := replays_of_splits hr h (recordAt_of_cleanTail hclean)
  obtain ⟨rfl, -⟩ := hcode.resolve_right fun hc => hc.2 hclean
  exact hreplays

theorem Replays.exists_cleanTail {views : List WalRecordView} (hok : r.Replays .ok views) (hr : r.Ready)
    (h : framing.Splits r.rest records tail) :
    ∃ more tail', framing.Splits tail more tail' ∧ CleanTail tail' ∧
      views = viewsFrom r.currentOffset (records ++ more) := by
  obtain ⟨more, tail', hsplit, hstuck⟩ := framing.exists_splits tail
  obtain ⟨status, hreplays, hcode⟩ := replays_of_splits hr (h.append hsplit) hstuck
  obtain ⟨rfl, hviews⟩ := hok.unique hreplays
  exact ⟨more, tail', hsplit, (hcode.resolve_right fun hc => absurd hc.1 (by decide)).2, hviews⟩

theorem replays_ok_iff (hr : r.Ready) (h : framing.Splits r.rest records tail) :
    (∃ views, r.Replays .ok views) ↔ ∃ chunks records tail', IsLog tail chunks records tail' ∧ CleanTail tail' := by
  constructor
  · rintro ⟨views, hok⟩
    obtain ⟨more, tail', hsplit, hclean, -⟩ := hok.exists_cleanTail hr h
    obtain ⟨chunks, hlog⟩ := splits_iff_isLog.mp hsplit
    exact ⟨chunks, more, tail', hlog, hclean⟩
  · rintro ⟨chunks, more, tail', hlog, hclean⟩
    exact ⟨_, replays_of_cleanTail hr (h.append (splits_iff_isLog.mpr ⟨chunks, hlog⟩)) hclean⟩

theorem replayLoop_mono {σ : Type*} {visitor : σ → WalRecordView → Status × σ} {fuel : Nat} {s : σ}
    {out : Status × WalReader × σ} (h : replayLoop visitor fuel r s = some out) {fuel' : Nat} (hle : fuel ≤ fuel') :
    replayLoop visitor fuel' r s = some out := by
  induction fuel generalizing r s fuel' with
  | zero => simp [replayLoop] at h
  | succ fuel ih =>
    obtain ⟨fuel', rfl⟩ := Nat.exists_eq_add_of_le' (Nat.le_trans (Nat.le_add_left 1 fuel) hle)
    rw [replayLoop] at h ⊢
    split at h
    · rename_i view _ _
      generalize visitor s view = visited at h ⊢
      dsimp only at h ⊢
      split_ifs at h ⊢
      · exact h
      · exact ih h (by omega)
    · exact h

theorem replays_of_replayLoop (fuel : Nat) {status : Status} {views : List WalRecordView}
    (h : (replayLoop collect fuel r []).map (fun out => (out.1, out.2.2)) = some (status, views)) :
    r.Replays status views := by
  obtain ⟨⟨_, final, _⟩, hloop, heq⟩ := Option.map_eq_some_iff.mp h
  cases heq
  exact ⟨fuel, final, fun _ hle => replayLoop_mono hloop hle⟩

theorem exists_replays (fuel : Nat) {status : Status}
    (h : (replayLoop collect fuel r []).map Prod.fst = some status) (hne : status ≠ .ok) :
    (∃ views, r.Replays status views) ∧ ¬ ∃ views, r.Replays .ok views := by
  obtain ⟨⟨_, _, views⟩, hloop, rfl⟩ := Option.map_eq_some_iff.mp h
  have hreplays := replays_of_replayLoop fuel (by rw [hloop]; rfl)
  exact ⟨⟨views, hreplays⟩, fun ⟨_, hok⟩ => hne (hreplays.unique hok).1⟩

/-- Replay of any file by a visitor that accepts everything: it terminates, returns `ok`
exactly on the log grammar, with the records of the only clean reading, and otherwise
`corrupted_record` after the longest run of records the file starts with. -/
theorem replay_accepts_grammar {σ : Type*} (visitor : σ → WalRecordView → Status × σ)
    (hvisitor : ∀ s view, (visitor s view).1 = .ok) {path : String} {content : FileContent} {calls : OpenCalls}
    (hopen : openPath path content calls = .ok r) (s : σ) :
    ∃ fuel₀ status final views,
      (∀ fuel, fuel₀ ≤ fuel → replayLoop visitor fuel r s =
        some (status, final, views.foldl (fun s view => (visitor s view).2) s)) ∧
      (status = .ok ↔ ∃ chunks records tail, IsLog content.bytes chunks records tail ∧ CleanTail tail) ∧
      (∀ chunks records tail, IsLog content.bytes chunks records tail → CleanTail tail →
        views = viewsFrom 0 records ∧ ∀ chunks' records' tail', IsLog content.bytes chunks' records' tail' →
          CleanTail tail' → chunks' = chunks ∧ records' = records ∧ tail' = tail) ∧
      (status ≠ .ok → status.code = .corruptedRecord ∧
        ∃ chunks records tail, IsLog content.bytes chunks records tail ∧ views = viewsFrom 0 records ∧
          ∀ chunks' records' tail', IsLog content.bytes chunks' records' tail' → records' <+: records) := by
  obtain ⟨hr, hzero, hrest⟩ := ready_of_openPath hopen
  obtain ⟨records, tail, hsplit, hstuck⟩ := framing.exists_splits content.bytes
  obtain ⟨status, hloop, hcode⟩ :=
    replayLoop_of_splits visitor hr (hrest ▸ hsplit) hstuck s fun view _ s => hvisitor s view
  rw [hzero] at hloop
  obtain ⟨chunks, hlog, hlongest⟩ := exists_isLog_longest hsplit hstuck
  have huniq {chunks' records' tail'} (hlog' : IsLog content.bytes chunks' records' tail')
      (hclean' : CleanTail tail') : records' = records ∧ tail' = tail :=
    (splits_iff_isLog.mpr ⟨_, hlog'⟩).unique (recordAt_of_cleanTail hclean') hsplit hstuck
  refine ⟨records.length + 1, status, _, viewsFrom 0 records, hloop, ⟨fun hok => ?_, ?_⟩, ?_, fun hne => ?_⟩
  · rcases hcode with ⟨-, hclean⟩ | ⟨hc, -⟩
    · exact ⟨chunks, records, tail, hlog, hclean⟩
    · rw [hok] at hc
      contradiction
  · rintro ⟨chunks', records', tail', hlog', hclean'⟩
    rcases hcode with ⟨hok, -⟩ | ⟨-, hdirty⟩
    · exact hok
    · exact absurd ((huniq hlog' hclean').2 ▸ hclean') hdirty
  · intro chunks₁ records₁ tail₁ hlog₁ hclean₁
    obtain ⟨rfl, rfl⟩ := huniq hlog₁ hclean₁
    refine ⟨rfl, fun chunks' records' tail' hlog' hclean' => ?_⟩
    obtain ⟨rfl, rfl⟩ := huniq hlog' hclean'
    exact ⟨chunks_unique hlog'.records hlog₁.records (hlog'.text ▸ hlog₁.text), rfl, rfl⟩
  · have hc := (hcode.resolve_left fun hok => hne hok.1).1
    exact ⟨hc, chunks, records, tail, hlog, rfl, hlongest⟩

def sampleRecord : Record :=
  ⟨{ payloadSize := 1, checksum := computeRecordChecksum { payloadSize := 1 } [7] }, [7]⟩

theorem replay_accepts_grammar_sampleRecord :
    ∃ r, openPath "aether.wal" ⟨sampleRecord.encode ++ [0], by decide⟩ ⟨some 3, true, some 4096⟩ = .ok r ∧
      ∃ fuel₀ final, ∀ fuel, fuel₀ ≤ fuel →
        replayLoop collect fuel r [] = some (.ok, final, viewsFrom 0 [sampleRecord]) := by
  have hsealed : ∀ r ∈ [sampleRecord], r.Sealed := by
    rintro r hr
    rw [List.mem_singleton.mp hr]
    exact ⟨⟨rfl, rfl, rfl⟩, rfl, rfl⟩
  have hlog := isLog_encode hsealed [0]
  rw [List.flatMap_singleton] at hlog
  have hclean : CleanTail [0] := Or.inr (Or.inl (by simp))
  obtain ⟨r, hopen⟩ : ∃ r, openPath "aether.wal" ⟨sampleRecord.encode ++ [0], by decide⟩
      ⟨some 3, true, some 4096⟩ = .ok r := ⟨_, rfl⟩
  obtain ⟨fuel₀, status, final, views, hloop, hok, hviews, -⟩ :=
    replay_accepts_grammar collect (fun _ _ => rfl) hopen []
  obtain rfl := hok.mpr ⟨_, _, _, hlog, hclean⟩
  rw [foldl_collect, (hviews _ _ _ hlog hclean).1] at hloop
  exact ⟨r, hopen, fuel₀, final, hloop⟩

end WalReader
end AetherStream.Wal
