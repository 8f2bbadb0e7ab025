import AetherStream.Basis.ModularCounter
import AetherStream.Wal.Grammar

/-! `WalWriter`: appending to a preallocated mapped file, with the outcome of each `msync`
and the reading of the clock as arguments, and what the file holds after each append. -/

namespace AetherStream.Wal
open Basis Bytes

structure WalWriter where
  file : MmapFile := {}
  currentOffset : UInt64 := 0
  nextSequence : UInt64 := 0
  recordsWritten : UInt64 := 0
  flushOnAppend : Bool := false

namespace WalWriter

def create (path : String) (fileSizeBytes : UInt64) (flushOnAppend : Bool) (calls : CreateCalls) :
    Expected WalWriter :=
  if path.isEmpty then .ofStatus ⟨.invalidArgument, "wal path must not be empty"⟩
  else if fileSizeBytes < walRecordHeaderSize.toUInt64 then
    .ofStatus ⟨.invalidArgument, "wal file cannot fit one header"⟩
  else if !fitsSizeT fileSizeBytes then
    .ofStatus ⟨.invalidArgument, "wal file size too large for this platform"⟩
  else match MmapFile.create path fileSizeBytes {} calls with
    | .error status => .ofStatus status
    | .ok file => .ok { file := file, flushOnAppend := flushOnAppend }

def createConfig (config : WalConfig) (calls : CreateCalls) : Expected WalWriter :=
  if !config.validate.isOk then .ofStatus config.validate
  else create config.path config.fileSizeBytes config.flushOnCommit calls

theorem isOk_of_createConfig {config : WalConfig} {calls : CreateCalls} {status : Status}
    (h : createConfig config calls = .error status) : status.isOk = false := by
  unfold createConfig create at h
  split at h; · exact Expected.isOk_of_ofStatus h
  split at h; · exact Expected.isOk_of_ofStatus h
  split at h; · exact Expected.isOk_of_ofStatus h
  split at h; · exact Expected.isOk_of_ofStatus h
  split at h
  · exact Expected.isOk_of_ofStatus h
  · contradiction

def valid (w : WalWriter) : Bool := w.file.valid

def remainingSpace (w : WalWriter) : UInt64 :=
  if !w.valid then 0
  else if w.currentOffset ≤ w.file.size then w.file.size - w.currentOffset else 0

def flush (w : WalWriter) (msyncOk : Bool) : Status :=
  if !w.valid then ⟨.invalidArgument, "wal writer is not open"⟩ else w.file.flush msyncOk

def checkAppend (w : WalWriter) (message : MessageView) : Status :=
  let totalSize := walRecordHeaderSize.toUInt64 + message.size
  if !w.valid then ⟨.invalidArgument, "wal writer is not open"⟩
  else if !(validateMessageView message).isOk then validateMessageView message
  else if !fitsSizeT message.size then ⟨.invalidArgument, "payload too large"⟩
  else if maxPayloadSize.toUInt64 < message.size then ⟨.invalidArgument, "payload too large"⟩
  else if 0xFFFFFFFFFFFFFFFF - walRecordHeaderSize.toUInt64 < message.size then
    ⟨.invalidArgument, "wal record size overflow"⟩
  else if w.remainingSpace < totalSize then
    ⟨.outOfSpace, "wal file does not have enough remaining space"⟩
  else if !fitsSizeT w.currentOffset || !fitsSizeT totalSize then
    ⟨.invalidArgument, "wal offset too large for this platform"⟩
  else .ok

def recordHeader (sequence : UInt64) (message : MessageView) (clock : UInt64) : WalRecordHeader :=
  let header : WalRecordHeader :=
    { payloadSize := message.size.toUInt32
      sequence := sequence
      timestampNs := if message.header.timestampNs ≠ 0 then message.header.timestampNs else clock
      flags := message.header.flags }
  { header with checksum := computeRecordChecksum header message.payload }

def copyRecord (w : WalWriter) (header : WalRecordHeader) (payload : List UInt8) : WalWriter :=
  let destination := w.currentOffset.toNat
  let file := w.file.copyIn destination (serializeHeader header)
  { w with
    file := if payload.isEmpty then file else file.copyIn (destination + walRecordHeaderSize.toNat) payload }

def advance (w : WalWriter) (message : MessageView) : WalWriter :=
  { w with
    currentOffset := w.currentOffset + (walRecordHeaderSize.toUInt64 + message.size)
    nextSequence := w.nextSequence + 1
    recordsWritten := w.recordsWritten + 1 }

/-- `clock` is what `monotonic_time_ns` would return, `msyncOk` the outcome of the flush. -/
def append (w : WalWriter) (message : MessageView) (clock : UInt64) (msyncOk : Bool) : Status × WalWriter :=
  if !(w.checkAppend message).isOk then (w.checkAppend message, w)
  else
    let w := w.copyRecord (recordHeader w.nextSequence message clock) message.payload
    if w.flushOnAppend && !(w.flush msyncOk).isOk then (w.flush msyncOk, w)
    else (.ok, w.advance message)

end WalWriter

structure AppendCall where
  message : MessageView
  clock : UInt64
  msyncOk : Bool

def AppendCall.record (c : AppendCall) (i : Nat) : Record :=
  ⟨WalWriter.recordHeader (UInt64.ofNat i) c.message c.clock, c.message.payload⟩

def accepted (calls : List AppendCall) (statuses : List Status) : List AppendCall :=
  ((calls.zip statuses).filter fun p => p.2.isOk).map Prod.fst

namespace WalWriter

def run (w : WalWriter) : List AppendCall → List Status × WalWriter
  | [] => ([], w)
  | c :: cs =>
    let (status, w) := w.append c.message c.clock c.msyncOk
    let (statuses, w) := run w cs
    (status :: statuses, w)

def rest (w : WalWriter) : List UInt8 := w.file.bytes.drop w.currentOffset.toNat

/-- An open writer has committed `records`: they fill the file up to the current offset. -/
structure Holds (w : WalWriter) (records : List Record) : Prop where
  valid : w.valid = true
  isSealed : ∀ r ∈ records, r.Sealed
  offset : w.currentOffset.toNat = (records.flatMap Record.encode).length
  text : w.file.bytes.take w.currentOffset.toNat = records.flatMap Record.encode
  sequence : w.nextSequence = UInt64.ofNat records.length
  written : w.recordsWritten = UInt64.ofNat records.length

theorem holds_create {path : String} {size : UInt64} {flush : Bool} {calls : CreateCalls} {w : WalWriter}
    (h : create path size flush calls = .ok w) :
    w.Holds [] ∧ w.rest = List.replicate size.toNat 0 ∧ w.flushOnAppend = flush := by
  unfold create at h
  split at h; · contradiction
  split at h; · contradiction
  split at h; · contradiction
  split at h; · contradiction
  rename_i hfile
  cases h
  obtain ⟨hvalid, -, hbytes⟩ := MmapFile.create_eq_ok hfile
  exact ⟨⟨hvalid, by simp, rfl, by simp, rfl, rfl⟩, by simp [rest, hbytes], rfl⟩

theorem size_create {path : String} {size : UInt64} {flush : Bool} {calls : CreateCalls} {w : WalWriter}
    (h : create path size flush calls = .ok w) : w.file.size = size := by
  obtain ⟨hholds, hrest, -⟩ := holds_create h
  have hlen := MmapFile.length_bytes hholds.valid
  have hbytes : w.file.bytes = w.rest := by rw [rest, hholds.offset]; rfl
  rw [hbytes, hrest, List.length_replicate] at hlen
  exact UInt64.toNat_inj.mp hlen.symm

theorem flush_of_valid {w : WalWriter} (h : w.valid = true) (msyncOk : Bool) :
    w.flush msyncOk = if msyncOk then .ok else ⟨.ioError, "failed to flush mmap file"⟩ := by
  have hfile : w.file.valid = true := h
  rw [flush, h, MmapFile.flush, hfile]
  cases msyncOk <;> rfl

namespace Holds
variable {w : WalWriter} {records : List Record} (h : w.Holds records)
include h

theorem bytes_eq : w.file.bytes = records.flatMap Record.encode ++ w.rest := by
  rw [← h.text, rest, List.take_append_drop]

theorem offset_add_rest : w.currentOffset.toNat + w.rest.length = w.file.bytes.length := by
  rw [h.bytes_eq, List.length_append, h.offset]

theorem toNat_currentOffset {n : Nat} (hn : ∀ r ∈ records, r.payload.length = n) :
    w.currentOffset.toNat = records.length * (40 + n) := by
  have hencode : ∀ r ∈ records, r.encode.length = 40 + n := by
    intro r hr
    rw [r.length_encode, hn r hr]
  rw [h.offset, List.length_flatMap, List.map_congr_left hencode, List.map_const', List.sum_replicate_nat]

theorem length_lt : records.length < 2 ^ 63 := by
  have hcount := (splits_encode h.isSealed w.rest).length_le
  have hlt := w.file.length_bytes_lt
  rw [h.bytes_eq] at hlt
  omega

theorem toNat_remainingSpace : w.remainingSpace.toNat = w.rest.length := by
  have hsize := MmapFile.length_bytes h.valid
  have hsum := h.offset_add_rest
  have hle : w.currentOffset ≤ w.file.size := by
    rw [UInt64.le_iff_toNat_le]
    omega
  rw [remainingSpace, h.valid, if_neg (by simp), if_pos hle, UInt64.toNat_sub_of_le _ _ hle]
  omega

end Holds

section CheckAppend
variable {message : MessageView} (hm : message.header.payloadSize.toNat = message.payload.length)
include hm

theorem toNat_totalSize : (walRecordHeaderSize.toUInt64 + message.size).toNat = 40 + message.payload.length := by
  have hlt := message.header.payloadSize.toNat_lt
  have hhead : walRecordHeaderSize.toUInt64.toNat = 40 := rfl
  rw [UInt64.toNat_add, hhead, message.toNat_size, Nat.mod_eq_of_lt (by omega)]

theorem size_le_limits : ¬ maxPayloadSize.toUInt64 < message.size ∧
    ¬ 0xFFFFFFFFFFFFFFFF - walRecordHeaderSize.toUInt64 < message.size := by
  have hlt := message.header.payloadSize.toNat_lt
  rw [UInt64.lt_iff_toNat_lt, UInt64.lt_iff_toNat_lt, message.toNat_size,
    show maxPayloadSize.toUInt64.toNat = 2 ^ 32 - 1 from rfl,
    show (0xFFFFFFFFFFFFFFFF - walRecordHeaderSize.toUInt64 : UInt64).toNat = 2 ^ 64 - 41 from rfl]
  omega

theorem checkAppend_eq {w : WalWriter} (hvalid : w.valid = true) :
    w.checkAppend message =
      if w.remainingSpace < walRecordHeaderSize.toUInt64 + message.size then
        ⟨.outOfSpace, "wal file does not have enough remaining space"⟩
      else .ok := by
  obtain ⟨hmax, hover⟩ := size_le_limits hm
  simp only [checkAppend, hvalid, validateMessageView_isOk_iff.mpr hm, fitsSizeT_eq_true, Bool.not_true,
    Bool.false_eq_true, if_false, Bool.or_self, if_neg hmax, if_neg hover]

end CheckAppend

theorem checkAppend_isOk_iff {w : WalWriter} {records : List Record} (h : w.Holds records) {message : MessageView} :
    (w.checkAppend message).isOk = true ↔
      message.header.payloadSize.toNat = message.payload.length ∧ 40 + message.payload.length ≤ w.rest.length := by
  by_cases hm : message.header.payloadSize.toNat = message.payload.length
  · have hfit : w.remainingSpace < walRecordHeaderSize.toUInt64 + message.size ↔
        w.rest.length < 40 + message.payload.length := by
      rw [UInt64.lt_iff_toNat_lt, h.toNat_remainingSpace, toNat_totalSize hm]
    rw [checkAppend_eq hm h.valid]
    split_ifs with hlt
    · exact ⟨fun hf => absurd hf (by decide), fun hle => absurd (hfit.mp hlt) (Nat.not_lt.mpr hle.2)⟩
    · exact ⟨fun _ => ⟨hm, Nat.not_lt.mp (mt hfit.mpr hlt)⟩, fun _ => rfl⟩
  · have hbad : (validateMessageView message).isOk = false :=
      Bool.eq_false_iff.mpr (mt validateMessageView_isOk_iff.mp hm)
    simp [checkAppend, h.valid, hbad, hm]

def record (w : WalWriter) (message : MessageView) (clock : UInt64) : Record :=
  ⟨recordHeader w.nextSequence message clock, message.payload⟩

def copied (w : WalWriter) (message : MessageView) (clock : UInt64) : WalWriter :=
  w.copyRecord (recordHeader w.nextSequence message clock) message.payload

theorem isSealed_record {w : WalWriter} {message : MessageView}
    (hm : message.header.payloadSize.toNat = message.payload.length) (clock : UInt64) :
    (w.record message clock).Sealed where
  shape := ⟨rfl, rfl, rfl⟩
  length := by
    have hlt := message.header.payloadSize.toNat_lt
    simp only [record, recordHeader, UInt64.toNat_toUInt32, message.toNat_size]
    omega
  checksum := rfl

theorem valid_copied (w : WalWriter) (message : MessageView) (clock : UInt64) :
    (w.copied message clock).valid = w.valid := by
  unfold copied copyRecord valid
  dsimp only
  split_ifs <;> simp only [MmapFile.valid_copyIn]

theorem bytes_copied {w : WalWriter} {message : MessageView}
    (hfits : w.currentOffset.toNat + (40 + message.payload.length) ≤ w.file.bytes.length) (clock : UInt64) :
    (w.copied message clock).file.bytes =
      overwrite w.file.bytes w.currentOffset.toNat (w.record message clock).encode := by
  have hlen := length_serializeHeader (recordHeader w.nextSequence message clock)
  unfold copied copyRecord record Record.encode
  dsimp only
  cases hp : message.payload with
  | nil => simp [MmapFile.bytes_copyIn]
  | cons b bs =>
    rw [hp] at hfits
    simp only [List.isEmpty_cons, Bool.false_eq_true, if_false, MmapFile.bytes_copyIn]
    rw [show walRecordHeaderSize.toNat =
      (serializeHeader (recordHeader w.nextSequence message clock)).length from hlen.symm,
      overwrite_append (by rw [hlen]; omega)]

section Append
variable {w : WalWriter} {records : List Record} (h : w.Holds records) {message : MessageView}
include h

theorem append_eq (clock : UInt64) (msyncOk : Bool) :
    w.append message clock msyncOk =
      if !(w.checkAppend message).isOk then (w.checkAppend message, w)
      else if w.flushOnAppend && !msyncOk then
        (⟨.ioError, "failed to flush mmap file"⟩, w.copied message clock)
      else (.ok, (w.copied message clock).advance message) := by
  have hflush := flush_of_valid ((w.valid_copied message clock).trans h.valid) msyncOk
  have hmode : (w.copied message clock).flushOnAppend = w.flushOnAppend := rfl
  unfold append
  rw [← copied]
  simp only [hflush, hmode]
  cases msyncOk <;> cases w.flushOnAppend <;> rfl

theorem append_fst_eq_ok (clock : UInt64) (msyncOk : Bool) (hok : (w.append message clock msyncOk).1.isOk = true) :
    (w.append message clock msyncOk).1 = .ok := by
  rw [append_eq h] at hok ⊢
  split_ifs at hok ⊢ with hcheck
  · simp [hok] at hcheck
  · contradiction
  · rfl

variable (hm : (w.checkAppend message).isOk = true) (clock : UInt64)
include hm

theorem Holds.fits : w.currentOffset.toNat + (40 + message.payload.length) ≤ w.file.bytes.length := by
  have hsum := h.offset_add_rest
  have hle := ((checkAppend_isOk_iff h).mp hm).2
  omega

theorem Holds.copied : (w.copied message clock).Holds records ∧
    (w.copied message clock).rest =
      (w.record message clock).encode ++ w.rest.drop (40 + message.payload.length) := by
  have hfits := h.fits hm
  have hlen : (w.record message clock).encode.length = 40 + message.payload.length := Record.length_encode _
  have hbytes := bytes_copied hfits clock
  have hoffset : (w.copied message clock).currentOffset = w.currentOffset := rfl
  refine ⟨⟨(valid_copied ..).trans h.valid, h.isSealed, h.offset, ?_, h.sequence, h.written⟩, ?_⟩
  · rw [hbytes, hoffset, take_overwrite (by rw [hlen]; exact hfits) le_rfl, h.text]
  · rw [WalWriter.rest, hbytes, hoffset, drop_overwrite (by rw [hlen]; exact hfits), hlen, WalWriter.rest,
      List.drop_drop]

theorem Holds.committed : ((w.copied message clock).advance message).Holds (records ++ [w.record message clock]) ∧
    ((w.copied message clock).advance message).rest = w.rest.drop (40 + message.payload.length) := by
  obtain ⟨hholds, hrest⟩ := h.copied hm clock
  have hfits := h.fits hm
  have hlt := w.file.length_bytes_lt
  have hlen : (w.record message clock).encode.length = 40 + message.payload.length := Record.length_encode _
  have hoffset : ((w.copied message clock).advance message).currentOffset.toNat =
      w.currentOffset.toNat + (w.record message clock).encode.length := by
    show (w.currentOffset + (walRecordHeaderSize.toUInt64 + message.size)).toNat = _
    rw [UInt64.toNat_add, UInt64.toNat_add, message.toNat_size, hlen,
      show walRecordHeaderSize.toUInt64.toNat = 40 from rfl]
    omega
  have hbytes : (w.copied message clock).file.bytes = records.flatMap Record.encode ++
      ((w.record message clock).encode ++ w.rest.drop (40 + message.payload.length)) := by
    rw [hholds.bytes_eq, hrest]
  have hfile : ((w.copied message clock).advance message).file = (w.copied message clock).file := rfl
  have hprefix : w.currentOffset.toNat + (w.record message clock).encode.length =
      (records.flatMap Record.encode ++ (w.record message clock).encode).length := by
    rw [List.length_append, h.offset]
  refine ⟨⟨hholds.valid, ?_, ?_, ?_, ?_, ?_⟩, ?_⟩
  · intro r hr
    rcases List.mem_append.mp hr with hr | hr
    · exact h.isSealed r hr
    · rw [List.mem_singleton.mp hr]
      exact isSealed_record ((checkAppend_isOk_iff h).mp hm).1 clock
  · rw [hoffset, hprefix]
    simp
  · rw [hfile, hoffset, hbytes, ← List.append_assoc, List.take_left' hprefix.symm]
    simp
  · show w.nextSequence + 1 = _
    rw [h.sequence, List.length_append, List.length_singleton, ModularCounter.ofNat_succ]
  · show w.recordsWritten + 1 = _
    rw [h.written, List.length_append, List.length_singleton, ModularCounter.ofNat_succ]
  · rw [WalWriter.rest, hfile, hoffset, hbytes, ← List.append_assoc, List.drop_left' hprefix.symm]

end Append

theorem size_append (w : WalWriter) (message : MessageView) (clock : UInt64) (msyncOk : Bool) :
    (w.append message clock msyncOk).2.file.size = w.file.size := by
  have hcopy (header : WalRecordHeader) : (w.copyRecord header message.payload).file.size = w.file.size := by
    unfold copyRecord
    dsimp only
    split_ifs <;> rfl
  unfold append
  dsimp only
  split_ifs
  · rfl
  · exact hcopy _
  · exact hcopy _

theorem Holds.record_eq {w : WalWriter} {records : List Record} (h : w.Holds records) (c : AppendCall) :
    w.record c.message c.clock = c.record records.length := by
  rw [record, AppendCall.record, h.sequence]

theorem Holds.append {w : WalWriter} {records : List Record} (h : w.Holds records) (c : AppendCall) :
    (w.append c.message c.clock c.msyncOk).2.Holds
      (records ++ if (w.append c.message c.clock c.msyncOk).1.isOk then [c.record records.length] else []) := by
  rw [append_eq h]
  by_cases hm : (w.checkAppend c.message).isOk = true
  · rw [if_neg (by simp [hm])]
    split_ifs with hfail _ hfail
    · contradiction
    · simpa using (h.copied hm c.clock).1
    · rw [← h.record_eq]
      exact (h.committed hm c.clock).1
    · contradiction
  · rw [Bool.not_eq_true] at hm
    simpa [hm] using h

theorem Holds.run {w : WalWriter} {records : List Record} (h : w.Holds records) (calls : List AppendCall) :
    (w.run calls).2.Holds
      (records ++ (accepted calls (w.run calls).1).mapIdx fun i c => c.record (records.length + i)) := by
  induction calls generalizing w records with
  | nil => simpa [WalWriter.run, accepted] using h
  | cons c cs ih =>
    have hstep := ih (h.append c)
    simp only [WalWriter.run, accepted, List.zip_cons_cons, List.filter_cons] at hstep ⊢
    split_ifs at hstep ⊢ with hok
    · simpa [List.mapIdx_cons, Nat.add_assoc, Nat.add_comm 1] using hstep
    · simpa using hstep

theorem rest_append {w : WalWriter} {records : List Record} (h : w.Holds records) (c : AppendCall)
    (hzero : ∀ b ∈ w.rest, b = 0) (hflush : (w.append c.message c.clock c.msyncOk).1.code ≠ .ioError) :
    ∀ b ∈ (w.append c.message c.clock c.msyncOk).2.rest, b = 0 := by
  rw [append_eq h] at hflush ⊢
  by_cases hm : (w.checkAppend c.message).isOk = true
  · rw [if_neg (by simp [hm])] at hflush ⊢
    split_ifs at hflush ⊢ with hfail
    · exact absurd rfl hflush
    · rw [(h.committed hm c.clock).2]
      exact fun b hb => hzero b (List.mem_of_mem_drop hb)
  · rw [Bool.not_eq_true] at hm
    simpa [hm] using hzero

theorem rest_run {w : WalWriter} {records : List Record} (h : w.Holds records) (calls : List AppendCall)
    (hzero : ∀ b ∈ w.rest, b = 0) (hflush : ∀ status ∈ (w.run calls).1, status.code ≠ .ioError) :
    ∀ b ∈ (w.run calls).2.rest, b = 0 := by
  induction calls generalizing w records with
  | nil => exact hzero
  | cons c cs ih =>
    simp only [WalWriter.run, List.mem_cons, forall_eq_or_imp] at hflush ⊢
    exact ih (h.append c) (rest_append h c hzero hflush.1) hflush.2

section Created
variable {path : String} {size : UInt64} {flush : Bool} {createCalls : CreateCalls} {calls : List AppendCall}
  {w₀ w : WalWriter} {statuses : List Status} (hcreate : create path size flush createCalls = .ok w₀)
  (hrun : w₀.run calls = (statuses, w))
include hcreate hrun

theorem holds_of_run : w.Holds ((accepted calls statuses).mapIdx fun i c => c.record i) := by
  have hholds := (holds_create hcreate).1.run calls
  simpa only [hrun, List.nil_append, List.length_nil, Nat.zero_add] using hholds

theorem rest_of_run (hflush : ∀ status ∈ statuses, status.code ≠ .ioError) : ∀ b ∈ w.rest, b = 0 := by
  obtain ⟨hholds, hrest, -⟩ := holds_create hcreate
  have hzero := rest_run hholds calls (by rw [hrest]; simp)
  rw [hrun] at hzero
  exact hzero hflush

end Created

end WalWriter
end AetherStream.Wal
