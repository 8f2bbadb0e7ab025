import AetherStream.Basis.Checked
import AetherStream.Wal.Session

/-! `WalReader::next` on untrusted bytes: written with spans and sums that fail when they leave
their bounds, it never fails, whatever the file holds and whatever was called before. -/

namespace AetherStream.Wal
open Basis Checked

def readTailChecked (remaining : UInt64) (tail : List UInt8) :
    Option (Except Status (WalRecordHeader × List UInt8)) :=
  if remaining < walRecordHeaderSize.toUInt64 then
    some (if isZeroFilled tail then .error ⟨.empty, ""⟩ else .error ⟨.empty, "partial wal record"⟩)
  else do
    let first ← subspan tail 0 walRecordHeaderSize.toNat
    match deserializeHeader first with
    | .error status => some (.error status)
    | .ok header =>
      if header.magic = 0 ∧ isZeroFilled tail then some (.error ⟨.empty, ""⟩)
      else if !(validateHeaderShape header).isOk then some (.error (validateHeaderShape header))
      else do
        let totalSize ← add header.headerSize.toUInt64 header.payloadSize.toUInt64
        if totalSize < header.headerSize.toUInt64 ∨ remaining < totalSize then
          some (.error ⟨.empty, "partial wal record"⟩)
        else if !fitsSizeT totalSize then
          some (.error ⟨.corruptedRecord, "wal record too large for this platform"⟩)
        else do
          let payload ← subspan tail walRecordHeaderSize.toNat header.payloadSize.toNat
          if !validateRecordChecksum header payload then some (.error ⟨.corruptedRecord, "wal checksum mismatch"⟩)
          else some (.ok (header, payload))

theorem wellShaped_of_isOk {h : WalRecordHeader} (hok : (validateHeaderShape h).isOk = true) : WellShaped h := by
  by_contra hs
  simp [Status.isOk, validateHeaderShape_of_not_wellShaped hs] at hok

theorem readTailChecked_eq {remaining : UInt64} {tail : List UInt8} (hrem : remaining.toNat = tail.length) :
    readTailChecked remaining tail = some (readTail remaining tail) := by
  unfold readTailChecked readTail
  by_cases hshort : remaining < walRecordHeaderSize.toUInt64
  · rw [if_pos hshort, if_pos hshort]
  rw [if_neg hshort, if_neg hshort]
  have hlen : 0 + walRecordHeaderSize.toNat ≤ tail.length := by
    rw [lt_headerSize_iff hrem, Nat.not_lt] at hshort
    simpa [walRecordHeaderSize] using hshort
  rw [subspan_eq_some hlen, Option.bind_eq_bind, Option.bind_some, List.drop_zero]
  cases deserializeHeader (tail.take walRecordHeaderSize.toNat) with
  | error status => rfl
  | ok header =>
    dsimp only
    by_cases hzero : header.magic = 0 ∧ isZeroFilled tail = true
    · rw [if_pos hzero, if_pos hzero]
    rw [if_neg hzero, if_neg hzero]
    cases hok : (validateHeaderShape header).isOk with
    | false => rfl
    | true =>
      have hs := wellShaped_of_isOk hok
      have hsum : add header.headerSize.toUInt64 header.payloadSize.toUInt64 = some (recordTotalSize header) := by
        refine add_eq_some ?_
        have := header.headerSize.toNat_lt
        have := header.payloadSize.toNat_lt
        rw [UInt16.toNat_toUInt64, UInt32.toNat_toUInt64]
        omega
      simp only [Bool.not_true, Bool.false_eq_true, if_false, hsum, Option.bind_eq_bind, Option.bind_some,
        fitsSizeT_eq_true]
      by_cases hmissing : recordTotalSize header < header.headerSize.toUInt64 ∨ remaining < recordTotalSize header
      · rw [if_pos hmissing, if_pos hmissing]
      rw [if_neg hmissing, if_neg hmissing]
      have hfits : walRecordHeaderSize.toNat + header.payloadSize.toNat ≤ tail.length := by
        rw [payload_missing_iff hrem hs, Nat.not_lt] at hmissing
        exact hmissing
      rw [subspan_eq_some hfits, Option.bind_some, apply_ite some]

namespace WalReader

def nextChecked (r : WalReader) : Option (Expected WalRecordView × WalReader) :=
  if !r.valid then some (.ofStatus ⟨.invalidArgument, "wal reader is not open"⟩, r)
  else if r.file.size ≤ r.currentOffset then some (.ofStatus ⟨.empty, ""⟩, r)
  else do
    let remaining ← sub r.file.size r.currentOffset
    if !fitsSizeT r.currentOffset || !fitsSizeT remaining then
      some (.ofStatus ⟨.invalidArgument, "wal offset too large for this platform"⟩, r)
    else do
      let tail ← subspan r.file.bytes r.currentOffset.toNat remaining.toNat
      match ← readTailChecked remaining tail with
      | .error status => some (.ofStatus status, r)
      | .ok (header, payload) => do
        let currentOffset ← add r.currentOffset (recordTotalSize header)
        let recordsRead ← add r.recordsRead 1
        some (.ok ⟨header, payload, r.currentOffset⟩,
          { r with currentOffset := currentOffset, recordsRead := recordsRead })

variable {r : WalReader} {record : Record} {records done more : List Record} {tail : List UInt8}

theorem nextChecked_eq (hr : r.Ready) (hcount : r.recordsRead.toNat + 1 < 2 ^ 64) : r.nextChecked = some r.next := by
  by_cases hnil : r.rest = []
  · have hle : r.file.size ≤ r.currentOffset := by
      rw [UInt64.le_iff_toNat_le, hr.toNat_size]
      simpa [rest] using hnil
    simp [nextChecked, next, hr.valid, hle]
  have hlt : ¬ r.file.size ≤ r.currentOffset := by
    rw [UInt64.le_iff_toNat_le, hr.toNat_size, Nat.not_le]
    simpa [rest] using hnil
  have hremaining := hr.toNat_remaining
  have hsum : r.currentOffset.toNat + r.rest.length = r.file.bytes.length := by
    rw [rest, List.length_drop, Nat.add_sub_of_le hr.offset_le]
  have hspan : subspan r.file.bytes r.currentOffset.toNat (r.file.size - r.currentOffset).toNat = some r.rest := by
    rw [subspan_eq_some (by omega), hremaining, ← rest, List.take_length]
  rw [next_eq_readTail hr hnil, nextChecked, sub_eq_some (UInt64.le_of_lt (UInt64.not_le.mp hlt))]
  simp only [hr.valid, Bool.not_true, Bool.false_eq_true, if_false, if_neg hlt, fitsSizeT_eq_true, Bool.or_self,
    hspan, readTailChecked_eq hremaining, Option.bind_eq_bind, Option.bind_some]
  cases hrec : recordAt r.rest with
  | none =>
    obtain ⟨status, htail, -⟩ := readTail_of_stuck hremaining hrec
    rw [htail]
  | some found =>
    obtain ⟨record, n⟩ := found
    obtain ⟨-, hs, rfl, hle, -, -⟩ := recordAt_eq_some.mp hrec
    have hfile := r.file.length_bytes_lt
    rw [readTail_of_record hremaining hrec]
    dsimp only
    rw [add_eq_some (by rw [hs.toNat_recordTotalSize]; omega), add_eq_some (by simpa using hcount)]
    rfl

theorem Ahead.of_next_ok (h : r.Ahead records tail) {view : WalRecordView} {after : WalReader}
    (hnext : r.next = (.ok view, after)) : view.offset = r.currentOffset ∧
      after.currentOffset.toNat = view.offset.toNat + (40 + view.header.payloadSize.toNat) := by
  cases records with
  | nil =>
    obtain ⟨status, herror, -⟩ := h.next_nil
    rw [herror] at hnext
    cases hnext
  | cons record records =>
    rw [h.next_cons.1] at hnext
    cases hnext
    obtain ⟨hready, hsplit, -⟩ := h
    cases hsplit with
    | more hframe _ => exact ⟨rfl, toNat_currentOffset_advance hready hframe⟩

theorem Ahead.of_next_error (h : r.Ahead records tail) {status : Status} {after : WalReader}
    (hnext : r.next = (.error status, after)) : after = r := by
  cases records with
  | nil =>
    obtain ⟨status', herror, -⟩ := h.next_nil
    rw [herror] at hnext
    exact (Prod.mk.inj hnext).2.symm
  | cons record records =>
    rw [h.next_cons.1] at hnext
    cases hnext

theorem recordsRead_foldl_advance (r : WalReader) (records : List Record) :
    (records.foldl advance r).recordsRead = r.recordsRead + UInt64.ofNat records.length := by
  induction records generalizing r with
  | nil => simp
  | cons record records ih =>
    rw [List.foldl_cons, ih, List.length_cons, ← ModularCounter.ofNat_succ]
    show r.recordsRead + 1 + _ = _
    rw [UInt64.add_assoc, UInt64.add_comm 1]

theorem Fresh.toNat_recordsRead (hfresh : r.Fresh) (h : r.Ahead (done ++ more) tail) :
    (done.foldl advance r).recordsRead.toNat = done.length ∧ done.length + 1 < 2 ^ 64 := by
  have hle := h.length_le
  have hrest := r.length_rest_le
  have hfile := r.file.length_bytes_lt
  rw [List.length_append] at hle
  refine ⟨?_, by omega⟩
  rw [recordsRead_foldl_advance, hfresh.recordsRead, UInt64.zero_add]
  exact UInt64.toNat_ofNat_of_lt' (show _ < 2 ^ 64 by omega)

theorem length_shown_le {σ : Type*} (visitor : σ → WalRecordView → Status × σ) (h : r.Ahead records tail) (s : σ) :
    (visits visitor s (viewsFrom r.currentOffset records)).shown.length ≤ r.file.bytes.length / 40 := by
  have hshown := (prefix_shown visitor s (viewsFrom r.currentOffset records)).length_le
  have hle := h.length_le
  have hrest := r.length_rest_le
  rw [length_viewsFrom] at hshown
  omega

theorem Ahead.replay_bounded {σ : Type*} (h : r.Ahead records tail) (visitor : σ → WalRecordView → Status × σ)
    (start : σ) : ∃ status final visited shown, shown.length ≤ r.file.bytes.length / 40 ∧
      ∀ fuel, r.file.bytes.length / 40 < fuel →
        r.replayLoop (recording visitor) fuel (start, []) = some (status, final, visited, shown) := by
  have hshown := length_shown_le visitor h start
  have hreplay := h.replay_eq (recording visitor) (start, [])
  rw [visits_recording, List.nil_append] at hreplay
  have hloop (fuel : Nat) (hfuel : r.file.bytes.length / 40 < fuel) :
      r.replayLoop (recording visitor) fuel (start, []) = some (r.replay (recording visitor) (start, [])) :=
    replayLoop_eq_replay _ _ _ hfuel
  rw [hreplay] at hloop
  exact ⟨_, _, _, _, hshown, hloop⟩

end WalReader

namespace Session
variable {σ : Type*} {r : WalReader}

/-- A reader over any bytes, after any calls: no subspan leaves the mapping and no sum wraps,
the views since the last reset tile the file up to the cursor and are counted, a call without
a record changes nothing, and a replay ends within as many records as headers fit. -/
theorem reader_safety {path : String} {content : FileContent} {calls : OpenCalls}
    (hopen : WalReader.openPath path content calls = .ok r) (cs : List (ReaderCall σ)) :
    let s := run ⟨r, []⟩ cs
    s.reader.nextChecked = some s.reader.next ∧
      s.reader.currentOffset.toNat ≤ content.bytes.length ∧
      (∀ view after, s.reader.next = (.ok view, after) → view.offset = s.reader.currentOffset ∧
        after.currentOffset.toNat = view.offset.toNat + (40 + view.header.payloadSize.toNat)) ∧
      WalReader.Tiles 0 s.delivered s.reader.currentOffset.toNat ∧
      s.reader.recordsRead.toNat = s.delivered.length ∧
      (∀ status after, s.reader.next = (.error status, after) →
        after = s.reader ∧ after.next = (.error status, after)) ∧
      ∀ (visitor : σ → WalRecordView → Status × σ) (start : σ), ∃ status final visited shown,
        shown.length ≤ content.bytes.length / 40 ∧
        ∀ fuel, content.bytes.length / 40 < fuel →
          s.reader.replayLoop (recording visitor) fuel (start, []) = some (status, final, visited, shown) := by
  intro s
  have hfresh := WalReader.fresh_of_openPath hopen
  have hbytes := WalReader.bytes_of_openPath hopen
  obtain ⟨all, tail, hall⟩ := hfresh.ready.exists_ahead
  obtain ⟨k, hs⟩ : ∃ k, Through r (all.take k) s := exists_through hfresh hall cs
  have hsplit : r.Ahead (all.take k ++ all.drop k) tail := by rwa [List.take_append_drop]
  have hahead := hs.ahead hsplit
  have hfile : s.reader.file = r.file := by rw [hs.reader, WalReader.file_foldl_advance]
  obtain ⟨hread, hcount⟩ := hfresh.toNat_recordsRead hsplit
  rw [← hs.reader] at hread
  have htiles := hsplit.tiles
  rw [← hs.reader, ← hs.delivered, hfresh.currentOffset, UInt64.toNat_zero] at htiles
  have hlen : s.delivered.length = (all.take k).length := by rw [hs.delivered, length_viewsFrom]
  have hreplay := hahead.replay_bounded (σ := σ)
  rw [hfile, hbytes] at hreplay
  refine ⟨WalReader.nextChecked_eq hahead.ready (by omega), ?_, fun view after => hahead.of_next_ok, htiles,
    hread.trans hlen.symm, fun status after hnext => ?_, hreplay⟩
  · rw [← hbytes, ← hfile]
    exact hahead.ready.offset_le
  · obtain rfl := hahead.of_next_error hnext
    exact ⟨rfl, hnext⟩

theorem reader_safety_sampleRecord :
    ∃ r, WalReader.openPath "aether.wal" ⟨WalReader.sampleRecord.encode ++ [0], by decide⟩
        ⟨some 3, true, some 4096⟩ = .ok r ∧
      WalReader.Tiles 0 (run ⟨r, []⟩ ([.next, .next] : List (ReaderCall Unit))).delivered
        (run ⟨r, []⟩ ([.next, .next] : List (ReaderCall Unit))).reader.currentOffset.toNat := by
  obtain ⟨r, hopen⟩ : ∃ r, WalReader.openPath "aether.wal" ⟨WalReader.sampleRecord.encode ++ [0], by decide⟩
      ⟨some 3, true, some 4096⟩ = .ok r := ⟨_, rfl⟩
  obtain ⟨-, -, -, htiles, -⟩ := reader_safety hopen ([.next, .next] : List (ReaderCall Unit))
  exact ⟨r, hopen, htiles⟩

end Session
end AetherStream.Wal
