import AetherStream.Wal.Checksum
import AetherStream.Wal.RoundTrip

/-! Files in which a byte was changed: what the reader accepts, reports and passes over. -/

namespace AetherStream.Wal
open Basis Bytes

theorem Record.Sealed.of_recordAt {bytes : List UInt8} {r : Record} {n : Nat} (h : recordAt bytes = some (r, n)) :
    r.Sealed ∧ n = r.encode.length := by
  obtain ⟨-, hs, rfl, hle, hp, hc⟩ := recordAt_eq_some.mp h
  have hlen : r.payload.length = r.header.payloadSize.toNat := by
    rw [hp, List.length_take, List.length_drop]
    omega
  exact ⟨⟨hs, hlen, hc⟩, by rw [r.length_encode, hlen]⟩

theorem encode_of_recordAt {bytes : List UInt8} {r : Record} {n : Nat} (h : recordAt bytes = some (r, n)) :
    r.encode = overwrite (bytes.take n) 12 [0, 0, 0, 0] := by
  obtain ⟨hd, -, rfl, hle, hp, -⟩ := recordAt_eq_some.mp h
  rw [Record.encode, serializeHeader_of_deserializeHeader (by omega) hd, hp, List.take_add,
    overwrite_append_left (by simp; omega)]

theorem WalReader.recordAt_of_next {r r' : WalReader} {view : WalRecordView} (h : r.next = (.ok view, r')) :
    ∃ record n, recordAt r.rest = some (record, n) ∧ view = ⟨record.header, record.payload, r.currentOffset⟩ := by
  have hready : r.Ready := by
    unfold next at h
    split at h; · cases h
    split at h; · cases h
    rename_i hvalid hlt
    have hv : r.valid = true := by simpa using hvalid
    refine ⟨hv, ?_⟩
    rw [UInt64.le_iff_toNat_le, Nat.not_le] at hlt
    exact (MmapFile.length_bytes hv).symm ▸ hlt.le
  cases hrec : recordAt r.rest with
  | none =>
    obtain ⟨status, hnext, -⟩ := next_of_stuck hready hrec
    rw [h] at hnext
    cases hnext
  | some p =>
    rw [next_of_record hready hrec] at h
    cases h
    exact ⟨p.1, p.2, rfl, rfl⟩

/-- The reader does not look at the reserved bytes, and the checksum does not cover them: an
accepted record stands in the file as the writer writes it exactly if they are zero. -/
theorem next_canonical_iff {r r' : WalReader} {view : WalRecordView} (h : r.next = (.ok view, r')) :
    (r.file.bytes.drop view.offset.toNat).take (40 + view.payload.length) =
        serializeHeader view.header ++ view.payload ↔
      ∀ k, 12 ≤ k → k < 16 → r.file.bytes[view.offset.toNat + k]? = some 0 := by
  obtain ⟨record, n, hrec, rfl⟩ := WalReader.recordAt_of_next h
  obtain ⟨-, hn⟩ := Record.Sealed.of_recordAt hrec
  have hle := framing.le_length hrec
  rw [record.length_encode] at hn
  have hread (k : Nat) (hk : k < 16) : (r.rest.take n)[k]? = r.file.bytes[r.currentOffset.toNat + k]? := by
    rw [List.getElem?_take_of_lt (by omega), WalReader.rest, List.getElem?_drop]
  show (r.rest.take (40 + record.payload.length) = record.encode) ↔ _
  rw [← hn, encode_of_recordAt hrec, eq_comm, overwrite_eq_self_iff (by simp; omega)]
  have hzeros : ((r.rest.take n).drop 12).take 4 = List.replicate 4 0 ↔ _ := slice_eq_replicate_iff 0
  refine hzeros.trans (forall_congr' fun k => imp_congr_right fun _ => imp_congr_right fun hk => ?_)
  rw [hread k hk]

def reservedFile (b : UInt8) : FileContent where
  bytes := WalReader.sampleRecord.encode.set 12 b
  length_lt := by
    rw [List.length_set, Record.length_encode]
    decide

theorem next_reservedFile {b : UInt8} {r : WalReader} {calls : OpenCalls}
    (hopen : WalReader.openPath "aether.wal" (reservedFile b) calls = .ok r)
    (hrec : recordAt (reservedFile b).bytes = some (WalReader.sampleRecord, 41)) :
    r.next = (.ok ⟨WalReader.sampleRecord.header, [7], 0⟩, r.advance WalReader.sampleRecord) := by
  obtain ⟨hready, hzero, hrest⟩ := WalReader.ready_of_openPath hopen
  rw [WalReader.next_of_record hready (hrest ▸ hrec), hzero]
  rfl

theorem next_canonical_iff_sampleRecord :
    ∃ r view r', WalReader.openPath "aether.wal" (reservedFile 0) ⟨some 3, true, some 4096⟩ = .ok r ∧
      r.next = (.ok view, r') ∧
      (r.file.bytes.drop view.offset.toNat).take (40 + view.payload.length) =
        serializeHeader view.header ++ view.payload := by
  obtain ⟨r, hopen⟩ : ∃ r, WalReader.openPath "aether.wal" (reservedFile 0) ⟨some 3, true, some 4096⟩ = .ok r :=
    ⟨_, rfl⟩
  have hnext := next_reservedFile hopen (by decide +kernel)
  refine ⟨r, _, _, hopen, hnext, (next_canonical_iff hnext).mpr ?_⟩
  rw [WalReader.bytes_of_openPath hopen]
  decide +kernel

/-- A record is accepted although its reserved bytes are not those the writer writes. -/
theorem next_not_canonical :
    ∃ r view r', WalReader.openPath "aether.wal" (reservedFile 1) ⟨some 3, true, some 4096⟩ = .ok r ∧
      r.next = (.ok view, r') ∧
      (r.file.bytes.drop view.offset.toNat).take (40 + view.payload.length) ≠
        serializeHeader view.header ++ view.payload := by
  obtain ⟨r, hopen⟩ : ∃ r, WalReader.openPath "aether.wal" (reservedFile 1) ⟨some 3, true, some 4096⟩ = .ok r :=
    ⟨_, rfl⟩
  refine ⟨r, _, _, hopen, next_reservedFile hopen (by decide +kernel), ?_⟩
  rw [WalReader.bytes_of_openPath hopen]
  decide +kernel

def WalWriter.damaged (w : WalWriter) (pos : Nat) (b : UInt8) : FileContent := w.file.content.overwrite pos [b]

section Change
variable {r : Record} (hr : r.Sealed) {j : Nat}

theorem readLe_set {bytes : List UInt8} {n off : Nat} (h : off + n ≤ bytes.length) (hj : ¬ (off ≤ j ∧ j < off + n))
    (b : UInt8) : readLe n (bytes.set j b) off = readLe n bytes off := by
  rw [readLe_eq (by simpa using h), readLe_eq h, slice_set hj]

theorem readLe_append {bytes : List UInt8} {n off : Nat} (h : off + n ≤ bytes.length) (rest : List UInt8) :
    readLe n (bytes ++ rest) off = readLe n bytes off := by
  rw [readLe_eq (by simp; omega), readLe_eq h, List.drop_append_of_le_length (by omega),
    List.take_append_of_le_length (by simp; omega)]

theorem eq_of_readLe_set {bytes : List UInt8} {n off : Nat} (h : off + n ≤ bytes.length) (hj : off ≤ j ∧ j < off + n)
    {b : UInt8} (heq : readLe n (bytes.set j b) off = readLe n bytes off) : bytes[j]? = some b := by
  -- the bytes of a number can be read off it
  have hslice : ((bytes.set j b).drop off).take n = (bytes.drop off).take n := by
    rw [← toLe_readLe (by simpa using h), heq, toLe_readLe h]
  have hget := congrArg (·[j - off]?) hslice
  simp only [List.getElem?_take_of_lt (show j - off < n by omega), List.getElem?_drop, Nat.add_sub_of_le hj.1] at hget
  rw [← hget, List.getElem?_set_self (by omega)]

theorem deserializeHeader_set {bytes : List UInt8} {h : WalRecordHeader} (hd : deserializeHeader bytes = .ok h)
    (hj : 8 ≤ j ∧ j < 16) (b : UInt8) :
    deserializeHeader (bytes.set j b) = .ok { h with payloadSize := readU32Le (bytes.set j b) 8 } := by
  -- every field but the length is read outside the reserved bytes and the length
  have hlen := length_le_of_deserializeHeader hd
  have hsize : walRecordHeaderSize.toNat = 40 := rfl
  have hread (n off : Nat) (hn : off + n ≤ 8 ∨ 16 ≤ off ∧ off + n ≤ 40) :
      readLe n (bytes.set j b) off = readLe n bytes off :=
    readLe_set (by omega) (by omega) b
  rw [deserializeHeader, if_neg (by omega)] at hd
  rw [deserializeHeader, if_neg (by simp [hsize]; omega), ← Except.ok.inj hd]
  unfold readU16Le readU32Le readU64Le
  rw [hread 4 0 (by decide), hread 2 4 (by decide), hread 2 6 (by decide), hread 8 16 (by decide),
    hread 8 24 (by decide), hread 4 32 (by decide), hread 4 36 (by decide)]

include hr

theorem Record.Sealed.readLe_payloadSize : readLe 4 r.encode 8 = r.payload.length := by
  rw [hr.length, payloadSize_of_deserializeHeader hr.isRecordText.decodes]

theorem Record.Sealed.overwrite_reserved : overwrite r.encode 12 [0, 0, 0, 0] = r.encode := by
  have hself := encode_of_recordAt (hr.isRecordText.recordAt_append [])
  rwa [List.append_nil, List.take_length, eq_comm] at hself

theorem payloadSize_set {h : WalRecordHeader} {b : UInt8} {rest : List UInt8} (hj : ¬ (8 ≤ j ∧ j < 12))
    (hd : deserializeHeader (r.encode.set j b ++ rest) = .ok h) : h.payloadSize.toNat = r.payload.length := by
  have hlen : 8 + 4 ≤ r.encode.length := by
    rw [r.length_encode]
    omega
  rw [payloadSize_of_deserializeHeader hd, readLe_append (by simpa using hlen), readLe_set hlen hj,
    hr.readLe_payloadSize]

theorem recordAt_set {b c : UInt8} (hc : r.encode[j]? = some c) (hb : b ≠ c) (hj : ¬ (8 ≤ j ∧ j < 16))
    (rest : List UInt8) :
    recordAt (r.encode.set j b ++ rest) = none := by
  -- with its length unchanged, an accepted record would have the same text but for one byte that the
  -- checksum covers
  rw [Option.eq_none_iff_forall_not_mem]
  rintro ⟨r', n⟩ hrec
  obtain ⟨hr', hn⟩ := Record.Sealed.of_recordAt hrec
  have hlen : n = (r.encode.set j b).length := by
    rw [hn, r'.length_encode, hr'.length, payloadSize_set hr (by omega) (recordAt_eq_some.mp hrec).1, List.length_set,
      r.length_encode]
  have hwide : 12 + [(0 : UInt8), 0, 0, 0].length ≤ r.encode.length := by
    rw [r.length_encode]
    simp only [List.length_cons, List.length_nil]
    omega
  apply hb
  apply hr.eq_of_set hr' hc
  rw [encode_of_recordAt hrec, hlen, List.take_left, overwrite_set hwide (by simp; omega), hr.overwrite_reserved]

theorem isRecordText_set_reserved (hj : 12 ≤ j ∧ j < 16) (b : UInt8) : IsRecordText (r.encode.set j b) r := by
  have hlen := hr.isRecordText.length
  have hsize : readU32Le (r.encode.set j b) 8 = r.header.payloadSize := by
    apply UInt32.toNat_inj.mp
    rw [toNat_readU32Le, readLe_set (by omega) (by omega), hr.readLe_payloadSize, hr.length]
  refine ⟨?_, hr.shape, ?_, by rw [List.length_set, hlen], hr.checksum⟩
  · rw [deserializeHeader_set hr.isRecordText.decodes (by omega), hsize]
  · rw [List.drop_set_of_lt (by omega), hr.isRecordText.payload]

theorem header_set_length {b c : UInt8} (hc : r.encode[j]? = some c) (hb : b ≠ c) (hj : 8 ≤ j ∧ j < 12)
    {h : WalRecordHeader} {rest : List UInt8} (hd : deserializeHeader (r.encode.set j b ++ rest) = .ok h) :
    WellShaped h ∧ h.payloadSize ≠ r.header.payloadSize := by
  have hlen := hr.isRecordText.length
  rw [deserializeHeader_append (by simp; omega), deserializeHeader_set hr.isRecordText.decodes (by omega)] at hd
  obtain rfl := Except.ok.inj hd
  refine ⟨hr.shape, fun (hsize : readU32Le (r.encode.set j b) 8 = _) => hb ?_⟩
  have hread : readLe 4 (r.encode.set j b) 8 = readLe 4 r.encode 8 := by
    rw [← toNat_readU32Le, hsize, hr.readLe_payloadSize, hr.length]
  exact Option.some.inj ((eq_of_readLe_set (by omega) hj hread).symm.trans hc)

theorem not_zeros_set (b : UInt8) (rest : List UInt8) : ¬ ∀ x ∈ r.encode.set j b ++ rest, x = 0 := by
  -- the magic number has two bytes other than zero, and only one byte was changed
  obtain ⟨hfirst, hsecond⟩ := hr.getElem?_magic
  have hmem {k : Nat} {x : UInt8} (hk : r.encode[k]? = some x) (hne : j ≠ k) : x ∈ r.encode.set j b ++ rest := by
    refine List.mem_append_left _ (List.mem_of_getElem? (i := k) ?_)
    rw [List.getElem?_set_ne hne, hk]
  intro hzero
  by_cases hj : j = 0
  · exact absurd (hzero _ (hmem hsecond (by omega))) (by decide)
  · exact absurd (hzero _ (hmem hfirst hj)) (by decide)

theorem not_cleanTail_set (hj : ¬ (8 ≤ j ∧ j < 12)) (b : UInt8) (rest : List UInt8) :
    ¬ CleanTail (r.encode.set j b ++ rest) := by
  -- the length still leads to the end of the record, which is in the file
  have hlen : 40 + r.payload.length ≤ (r.encode.set j b ++ rest).length := by
    rw [List.length_append, List.length_set, r.length_encode]
    omega
  intro hclean
  obtain ⟨h, hd, -, hlt⟩ := hclean.exists_header (by omega) (not_zeros_set hr b rest)
  have hsize := payloadSize_set hr hj hd
  omega

end Change

def startOf (records : List Record) (i : Nat) : Nat := ((records.take i).flatMap Record.encode).length

theorem startOf_succ {records : List Record} {i : Nat} {record : Record} (hi : records[i]? = some record) :
    startOf records (i + 1) = startOf records i + record.encode.length := by
  rw [startOf, startOf, List.take_add_one, hi, List.flatMap_append, List.length_append, Option.toList_some,
    List.flatMap_singleton]

theorem startOf_lt {records : List Record} {i k : Nat} (hik : i < k) (hk : k ≤ records.length) :
    startOf records i < startOf records k := by
  induction k with
  | zero => omega
  | succ k ih =>
    rw [startOf_succ (List.getElem?_eq_getElem (show k < records.length by omega)), Record.length_encode]
    rcases Nat.lt_succ_iff_lt_or_eq.mp hik with h | rfl
    · have := ih h (by omega)
      omega
    · omega

theorem startOf_le {records : List Record} {i k : Nat} (hik : i ≤ k) (hk : k ≤ records.length) :
    startOf records i ≤ startOf records k := by
  rcases hik.eq_or_lt with rfl | hlt
  · exact le_rfl
  · exact (startOf_lt hlt hk).le

theorem startOf_injective {records : List Record} {i k : Nat} (hi : i ≤ records.length) (hk : k ≤ records.length)
    (h : startOf records i = startOf records k) : i = k := by
  rcases Nat.lt_trichotomy i k with hlt | heq | hlt
  · exact absurd h (startOf_lt hlt hk).ne
  · exact heq
  · exact absurd h (startOf_lt hlt hi).ne'

theorem eq_of_startOf {records : List Record} {i j k l : Nat} {r r' : Record} (hi : records[i]? = some r)
    (hk : records[k]? = some r') (hj : j < r.encode.length) (hl : l < r'.encode.length)
    (h : startOf records i + j = startOf records k + l) : i = k := by
  have hsi := startOf_succ hi
  have hsk := startOf_succ hk
  have hil := (List.getElem?_eq_some_iff.mp hi).1
  have hkl := (List.getElem?_eq_some_iff.mp hk).1
  rcases Nat.lt_trichotomy i k with hlt | heq | hlt
  · have : startOf records (i + 1) ≤ startOf records k := startOf_le hlt hkl.le
    omega
  · exact heq
  · have : startOf records (k + 1) ≤ startOf records i := startOf_le hlt hil.le
    omega

theorem exists_startOf {records : List Record} {pos : Nat} (h : pos < (records.flatMap Record.encode).length) :
    ∃ i j record, records[i]? = some record ∧ j < record.encode.length ∧ pos = startOf records i + j := by
  induction records generalizing pos with
  | nil => exact absurd h (Nat.not_lt_zero _)
  | cons r records ih =>
    by_cases hr : pos < r.encode.length
    · exact ⟨0, pos, r, rfl, hr, by simp [startOf]⟩
    · rw [List.flatMap_cons, List.length_append] at h
      obtain ⟨i, j, record, hi, hj, hpos⟩ := ih (show pos - r.encode.length < _ by omega)
      refine ⟨i + 1, j, record, hi, hj, ?_⟩
      rw [startOf, List.take_succ_cons, List.flatMap_cons, List.length_append]
      rw [startOf] at hpos
      omega

theorem isSealed_of_splits {bytes tail : List UInt8} {records : List Record} (h : framing.Splits bytes records tail) :
    (∀ r ∈ records, r.Sealed) ∧ (records.flatMap Record.encode).length + tail.length = bytes.length := by
  induction h with
  | done tail => simp
  | @more bytes r n records tail hframe _ ih =>
    obtain ⟨hsealed, hn⟩ := Record.Sealed.of_recordAt hframe
    have hle := framing.le_length hframe
    obtain ⟨hall, hlen⟩ := ih
    rw [List.length_drop] at hlen
    refine ⟨List.forall_mem_cons.mpr ⟨hsealed, hall⟩, ?_⟩
    rw [List.flatMap_cons, List.length_append]
    omega

theorem header_of_viewsFrom {records records' : List Record} (hsealed : ∀ r ∈ records, r.Sealed)
    (hlt : (records.flatMap Record.encode).length < 2 ^ 64) (hsealed' : ∀ r ∈ records', r.Sealed)
    (hlt' : (records'.flatMap Record.encode).length < 2 ^ 64) {i : Nat} {record : Record}
    (hi : records[i]? = some record) (htake : records'.take i = records.take i)
    (hsub : ∀ view ∈ viewsFrom 0 records, view ∈ viewsFrom 0 records') :
    ∃ record', records'[i]? = some record' ∧ record'.header = record.header := by
  have hil := (List.getElem?_eq_some_iff.mp hi).1
  obtain ⟨view, hview⟩ : ∃ view, (viewsFrom 0 records)[i]? = some view :=
    ⟨_, List.getElem?_eq_getElem (by rw [length_viewsFrom]; exact hil)⟩
  obtain ⟨k, hk⟩ := List.mem_iff_getElem?.mp (hsub view (List.mem_of_getElem? hview))
  have hzero : (0 : UInt64).toNat = 0 := rfl
  obtain ⟨r, hr, hheader, -, hoffset⟩ := viewsFrom_getElem? hsealed (by omega) hview
  obtain ⟨r', hr', hheader', -, hoffset'⟩ := viewsFrom_getElem? hsealed' (by omega) hk
  rw [hi] at hr
  obtain rfl := Option.some.inj hr
  have hlen : i ≤ records'.length := by
    have := congrArg List.length htake
    rw [List.length_take, List.length_take] at this
    omega
  have heq : startOf records' k = startOf records' i := by
    unfold startOf
    rw [htake]
    omega
  obtain rfl := startOf_injective (List.getElem?_eq_some_iff.mp hr').1.le hlen heq
  exact ⟨r', hr', hheader'.symm.trans hheader⟩

theorem cut_getElem? {records : List Record} {i : Nat} {record : Record} (hi : records[i]? = some record) :
    records.take i ++ record :: records.drop (i + 1) = records := by
  obtain ⟨hlt, rfl⟩ := List.getElem?_eq_some_iff.mp hi
  rw [← List.drop_eq_getElem_cons hlt, List.take_append_drop]

theorem WalWriter.Holds.bytes_cut {w : WalWriter} {records : List Record} (h : w.Holds records) {i : Nat}
    {record : Record} (hi : records[i]? = some record) :
    w.file.bytes = (records.take i).flatMap Record.encode ++
      (record.encode ++ ((records.drop (i + 1)).flatMap Record.encode ++ w.rest)) := by
  rw [h.bytes_eq, ← List.append_assoc record.encode, ← List.flatMap_cons, ← List.append_assoc, ← List.flatMap_append,
    cut_getElem? hi]

theorem bytes_damaged {w : WalWriter} {records : List Record} (h : w.Holds records) {i j : Nat} {record : Record}
    (hi : records[i]? = some record) (hj : j < record.encode.length) (b : UInt8) :
    (w.damaged (startOf records i + j) b).bytes =
      (records.take i).flatMap Record.encode ++
        (record.encode.set j b ++ ((records.drop (i + 1)).flatMap Record.encode ++ w.rest)) := by
  show overwrite w.file.bytes (startOf records i + j) [b] = _
  rw [h.bytes_cut hi, startOf, overwrite_singleton (by simp only [List.length_append]; omega),
    List.set_append_right _ _ (by omega), Nat.add_sub_cancel_left, List.set_append_left _ _ hj]

section Damaged
variable {w : WalWriter} {records : List Record} (h : w.Holds records) {i j : Nat} {record : Record}
  (hi : records[i]? = some record) (hj : j < record.encode.length) {b : UInt8} {path : String} {calls : OpenCalls}
  {r : WalReader} (hopen : WalReader.openPath path (w.damaged (startOf records i + j) b) calls = .ok r)
include h hi hj hopen

theorem splits_damaged : framing.Splits r.rest (records.take i)
    (record.encode.set j b ++ ((records.drop (i + 1)).flatMap Record.encode ++ w.rest)) := by
  rw [(WalReader.ready_of_openPath hopen).2.2, bytes_damaged h hi hj]
  exact splits_encode (fun r hr => h.isSealed r (List.mem_of_mem_take hr)) _

theorem replays_damaged {c : UInt8} (hc : record.encode[j]? = some c) (hb : b ≠ c) (hout : ¬ (8 ≤ j ∧ j < 16)) :
    ∃ status, r.Replays status (viewsFrom 0 (records.take i)) ∧ status.code = .corruptedRecord := by
  have hsealed := h.isSealed record (List.mem_of_getElem? hi)
  obtain ⟨hready, hzero, -⟩ := WalReader.ready_of_openPath hopen
  obtain ⟨status, hreplays, hcode⟩ :=
    WalReader.replays_of_splits hready (splits_damaged h hi hj hopen) (recordAt_set hsealed hc hb hout _)
  rw [hzero] at hreplays
  exact ⟨status, hreplays, (hcode.resolve_left fun hc => not_cleanTail_set hsealed (by omega) b _ hc.2).1⟩

theorem replays_reserved (hzeros : ∀ b ∈ w.rest, b = 0) (hres : 12 ≤ j ∧ j < 16) :
    r.Replays .ok (viewsFrom 0 records) := by
  have hsealed := h.isSealed record (List.mem_of_getElem? hi)
  obtain ⟨hready, hzero, -⟩ := WalReader.ready_of_openPath hopen
  have hbehind : framing.Splits ((records.drop (i + 1)).flatMap Record.encode ++ w.rest)
      (records.drop (i + 1)) w.rest :=
    splits_encode (fun r hr => h.isSealed r (List.mem_of_mem_drop hr)) _
  have hall := (splits_damaged h hi hj hopen).append
    ((isRecordText_set_reserved hsealed hres b).splits_append hbehind)
  rw [cut_getElem? hi] at hall
  have hreplays := WalReader.replays_of_cleanTail hready hall (Or.inr (Or.inl hzeros))
  rwa [hzero] at hreplays

end Damaged

/-- A changed byte anywhere but in the length and the reserved bytes of a record is reported,
after the records before it. -/
theorem damage_reported (path : String) (size : UInt64) (flush : Bool) (createCalls : CreateCalls)
    (calls : List AppendCall) (openCalls : OpenCalls) {w₀ w : WalWriter} {statuses : List Status}
    {records : List Record} {r : WalReader} {i j : Nat} {record : Record} {b c : UInt8}
    (hcreate : WalWriter.create path size flush createCalls = .ok w₀) (hrun : w₀.run calls = (statuses, w))
    (hrecords : records = (accepted calls statuses).mapIdx fun i c => c.record i)
    (hi : records[i]? = some record) (hc : record.encode[j]? = some c) (hb : b ≠ c) (hj : ¬ (8 ≤ j ∧ j < 16))
    (hopen : WalReader.openPath path (w.damaged (startOf records i + j) b) openCalls = .ok r) :
    ∃ status, r.Replays status (viewsFrom 0 (records.take i)) ∧ status.code = .corruptedRecord := by
  have hholds : w.Holds records := hrecords ▸ WalWriter.holds_of_run hcreate hrun
  exact replays_damaged hholds hi (List.getElem?_eq_some_iff.mp hc).1 hopen hc hb hj

def twoBytes : List AppendCall := [⟨oneByteMessage 1, 5, true⟩, ⟨oneByteMessage 2, 6, true⟩]

set_option maxRecDepth 2000 in
theorem damage_reported_payload :
    ∃ w₀ w r, WalWriter.create "aether.wal" 96 false ⟨some 3, true, some 4096⟩ = .ok w₀ ∧
      w₀.run twoBytes = ([.ok, .ok], w) ∧
      WalReader.openPath "aether.wal" (w.damaged (41 + 40) 3) ⟨some 4, true, some 8192⟩ = .ok r ∧
      ∃ status view, r.Replays status [view] ∧ view.payload = [1] ∧ status.code = .corruptedRecord := by
  refine ⟨_, _, _, rfl, rfl, rfl, ?_⟩
  obtain ⟨status, hreplays, hcode⟩ := damage_reported "aether.wal" 96 false ⟨some 3, true, some 4096⟩ twoBytes
    ⟨some 4, true, some 8192⟩ (i := 1) (j := 40) (b := 3) (c := 2) rfl rfl rfl rfl (by decide +kernel) (by decide)
    (by decide) rfl
  exact ⟨status, _, hreplays, rfl, hcode⟩

/-- What follows a damaged length field keeps the damage from being noticed: the length leads
past the end of the file, or to a payload with the same checksum and another log behind it. -/
def Misleads (tail : List UInt8) : Prop :=
  ∃ h, deserializeHeader tail = .ok h ∧ (tail.length < 40 + h.payloadSize.toNat ∨
    validateRecordChecksum h ((tail.drop 40).take h.payloadSize.toNat) = true ∧
      ∃ chunks records tail', IsLog (tail.drop (40 + h.payloadSize.toNat)) chunks records tail' ∧ CleanTail tail')

theorem misleads_iff {bytes : List UInt8} (hne : ¬ ∀ b ∈ bytes, b = 0) (hlen : 40 ≤ bytes.length)
    (hshape : ∀ h, deserializeHeader bytes = .ok h → WellShaped h) :
    Misleads bytes ↔ ∃ records tail, framing.Splits bytes records tail ∧ CleanTail tail := by
  constructor
  · rintro ⟨h, hd, hend⟩
    by_cases hlong : bytes.length < 40 + h.payloadSize.toNat
    · exact ⟨[], _, .done _, Or.inr (Or.inr (Or.inr ⟨hlen, h, hd, hshape h hd, hlong⟩))⟩
    · obtain ⟨hsum, chunks, records, tail, hlog, hclean⟩ := hend.resolve_left hlong
      have hrec : recordAt bytes = some (⟨h, (bytes.drop 40).take h.payloadSize.toNat⟩, 40 + h.payloadSize.toNat) :=
        recordAt_eq_some.mpr ⟨hd, hshape h hd, rfl, Nat.not_lt.mp hlong, rfl,
          by simpa [validateRecordChecksum] using hsum⟩
      exact ⟨_, tail, .more hrec (splits_iff_isLog.mpr ⟨chunks, hlog⟩), hclean⟩
  · rintro ⟨records, tail, hsplit, hclean⟩
    cases hsplit with
    | done =>
      obtain ⟨h, hd, -, hlt⟩ := hclean.exists_header hlen hne
      exact ⟨h, hd, Or.inl hlt⟩
    | more hrec hsplit =>
      obtain ⟨hd, -, rfl, -, hp, hsum⟩ := recordAt_eq_some.mp hrec
      obtain ⟨chunks, hlog⟩ := splits_iff_isLog.mp hsplit
      exact ⟨_, hd, Or.inr ⟨by simpa [validateRecordChecksum, ← hp] using hsum, chunks, _, tail, hlog, hclean⟩⟩

section Damaged
variable {w : WalWriter} {records : List Record} (h : w.Holds records) {i j : Nat} {record : Record}
  (hi : records[i]? = some record) {b c : UInt8} (hc : record.encode[j]? = some c) (hb : b ≠ c) {path : String}
  {calls : OpenCalls} {r : WalReader}
  (hopen : WalReader.openPath path (w.damaged (startOf records i + j) b) calls = .ok r)
include h hi hc hb hopen

theorem visited_length_iff (hj : 8 ≤ j ∧ j < 12) :
    (∀ views, r.Replays .ok views → ∀ view ∈ viewsFrom 0 records, view ∈ views) ↔
      ¬ Misleads ((w.damaged (startOf records i + j) b).bytes.drop (startOf records i)) := by
  have hlt := (List.getElem?_eq_some_iff.mp hc).1
  have hsealed := h.isSealed record (List.mem_of_getElem? hi)
  obtain ⟨hready, hzero, -⟩ := WalReader.ready_of_openPath hopen
  have hsplit := splits_damaged h hi hlt hopen
  have hhead (head : WalRecordHeader) (hd : deserializeHeader (record.encode.set j b ++
      ((records.drop (i + 1)).flatMap Record.encode ++ w.rest)) = .ok head) := header_set_length hsealed hc hb hj hd
  have hne := not_zeros_set hsealed (j := j) b ((records.drop (i + 1)).flatMap Record.encode ++ w.rest)
  rw [bytes_damaged h hi hlt, startOf, List.drop_left]
  have hlen : 40 ≤ (record.encode.set j b ++ ((records.drop (i + 1)).flatMap Record.encode ++ w.rest)).length := by
    rw [List.length_append, List.length_set, record.length_encode]
    omega
  have hcount : (records.take i).length = i := by
    rw [List.length_take]
    exact Nat.min_eq_left (List.getElem?_eq_some_iff.mp hi).1.le
  have hbound : (records.flatMap Record.encode).length < 2 ^ 64 := by
    rw [← h.offset]
    exact UInt64.toNat_lt _
  have hrest : r.rest.length < 2 ^ 63 := by
    rw [(WalReader.ready_of_openPath hopen).2.2]
    exact FileContent.length_lt _
  generalize record.encode.set j b ++ _ = tail at hsplit hhead hne hlen ⊢
  rw [misleads_iff hne hlen fun head hd => (hhead head hd).1]
  constructor
  · -- a clean reading of the damaged tail shows no record with the header that stood there
    rintro hall ⟨more, tail', hmore, hclean⟩
    have hreplays := WalReader.replays_of_cleanTail hready (hsplit.append hmore) hclean
    rw [hzero] at hreplays
    obtain ⟨hsealed', hlen'⟩ := isSealed_of_splits (hsplit.append hmore)
    obtain ⟨record', hget, hheader⟩ := header_of_viewsFrom h.isSealed hbound hsealed' (by omega) hi
      (List.take_left' hcount) (hall _ hreplays)
    rw [List.getElem?_append_right hcount.le, hcount, Nat.sub_self] at hget
    cases hmore with
    | done => cases hget
    | more hframe _ =>
      cases hget
      exact (hhead _ (recordAt_eq_some.mp hframe).1).2 (congrArg _ hheader)
  · intro hnot views hok
    obtain ⟨more, tail', hmore, hclean, -⟩ := hok.exists_cleanTail hready hsplit
    exact absurd ⟨more, tail', hmore, hclean⟩ hnot

end Damaged

/-- A single changed byte makes replay return `ok` without all the records only where it hits
the length of a record, and that length then leads past the end of the file or to another
reading of the bytes behind it. -/
theorem visited_iff_not_misleads (path : String) (size : UInt64) (flush : Bool) (createCalls : CreateCalls)
    (calls : List AppendCall) (openCalls : OpenCalls) (pos : Nat) (b : UInt8) {w₀ w : WalWriter}
    {statuses : List Status} {records : List Record} {r : WalReader}
    (hcreate : WalWriter.create path size flush createCalls = .ok w₀) (hrun : w₀.run calls = (statuses, w))
    (hflush : ∀ status ∈ statuses, status.code ≠ .ioError)
    (hrecords : records = (accepted calls statuses).mapIdx fun i c => c.record i)
    (hpos : pos < w.currentOffset.toNat) (hb : w.file.bytes[pos]? ≠ some b)
    (hopen : WalReader.openPath path (w.damaged pos b) openCalls = .ok r) :
    (∀ views, r.Replays .ok views → ∀ view ∈ viewsFrom 0 records, view ∈ views) ↔
      ¬ ∃ i < records.length, startOf records i + 8 ≤ pos ∧ pos < startOf records i + 12 ∧
        Misleads ((w.damaged pos b).bytes.drop (startOf records i)) := by
  have hholds : w.Holds records := hrecords ▸ WalWriter.holds_of_run hcreate hrun
  have hzeros := WalWriter.rest_of_run hcreate hrun hflush
  obtain ⟨i, j, record, hi, hj, rfl⟩ := exists_startOf (hholds.offset ▸ hpos)
  obtain ⟨c, hc⟩ : ∃ c, record.encode[j]? = some c := ⟨_, List.getElem?_eq_getElem hj⟩
  have hne : b ≠ c := by
    intro heq
    rw [hholds.bytes_cut hi, startOf, List.getElem?_append_right (by omega), Nat.add_sub_cancel_left,
      List.getElem?_append_left hj, hc, heq] at hb
    exact hb rfl
  have hplace {k : Nat} (hk : k < records.length) (hle : startOf records k + 8 ≤ startOf records i + j)
      (hlt : startOf records i + j < startOf records k + 12) : i = k := by
    refine eq_of_startOf (l := startOf records i + j - startOf records k) hi (List.getElem?_eq_getElem hk) hj ?_
      (by omega)
    rw [Record.length_encode]
    omega
  -- a damaged length, a reserved byte that nobody reads, or damage that is reported
  by_cases hlen : 8 ≤ j ∧ j < 12
  · rw [visited_length_iff hholds hi hc hne hopen hlen]
    refine not_congr ⟨fun hm => ⟨i, (List.getElem?_eq_some_iff.mp hi).1, by omega, by omega, hm⟩, ?_⟩
    rintro ⟨k, hk, hle, hlt, hm⟩
    obtain rfl := hplace hk hle hlt
    exact hm
  · refine iff_of_true (fun views hok => ?_) ?_
    · by_cases hres : 12 ≤ j ∧ j < 16
      · rw [(hok.unique (replays_reserved hholds hi hj hopen hzeros hres)).2]
        exact fun _ => id
      · obtain ⟨status, hbad, hcode⟩ := replays_damaged hholds hi hj hopen hc hne (by omega)
        rw [← (hok.unique hbad).1] at hcode
        exact absurd hcode (by decide)
    · rintro ⟨k, hk, hle, hlt, -⟩
      obtain rfl := hplace hk hle hlt
      omega

set_option maxRecDepth 2000 in
theorem visited_reserved_byte :
    ∃ w₀ w r, WalWriter.create "aether.wal" 96 false ⟨some 3, true, some 4096⟩ = .ok w₀ ∧
      w₀.run twoBytes = ([.ok, .ok], w) ∧
      WalReader.openPath "aether.wal" (w.damaged 12 1) ⟨some 4, true, some 8192⟩ = .ok r ∧
      ∀ views, r.Replays .ok views → ∀ view ∈ viewsFrom 0 (twoBytes.mapIdx fun i c => c.record i), view ∈ views := by
  refine ⟨_, _, _, rfl, rfl, rfl, ?_⟩
  refine (visited_iff_not_misleads "aether.wal" 96 false ⟨some 3, true, some 4096⟩ twoBytes ⟨some 4, true, some 8192⟩
    12 1 rfl rfl (by decide) rfl (by decide +kernel) (by decide +kernel) rfl).mpr ?_
  rintro ⟨i, hi, hle, hlt, -⟩
  have hout : ∀ i < 2, ¬ (startOf (twoBytes.mapIdx fun i c => c.record i) i + 8 ≤ 12 ∧
      12 < startOf (twoBytes.mapIdx fun i c => c.record i) i + 12) := by decide +kernel
  exact hout i hi ⟨hle, hlt⟩

set_option maxRecDepth 2000 in
/-- The length of the first of two records is raised past the end of the file: replay takes
it for the last record, torn, and returns `ok` without having visited anything. -/
theorem not_visited_raised_length :
    ∃ w₀ w r, WalWriter.create "aether.wal" 96 false ⟨some 3, true, some 4096⟩ = .ok w₀ ∧
      w₀.run twoBytes = ([.ok, .ok], w) ∧ 8 < w.currentOffset.toNat ∧ w.file.bytes[8]? = some 1 ∧
      WalReader.openPath "aether.wal" (w.damaged 8 255) ⟨some 4, true, some 8192⟩ = .ok r ∧
      r.Replays .ok [] ∧ ¬ ∀ views, r.Replays .ok views →
        ∀ view ∈ viewsFrom 0 (twoBytes.mapIdx fun i c => c.record i), view ∈ views := by
  refine ⟨_, _, _, rfl, rfl, by decide +kernel, by decide +kernel, rfl, ?_⟩
  refine (and_iff_left_of_imp fun hok hall => absurd (hall [] hok) (by decide +kernel)).mpr ?_
  exact WalReader.replays_of_replayLoop 1 (by decide +kernel)

end AetherStream.Wal
