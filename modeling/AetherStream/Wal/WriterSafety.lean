import AetherStream.Basis.Checked
import AetherStream.Wal.WalWriter

/-! `WalWriter` over whole sequences of `append` and `flush`: where the cursor stands, what is
never written to, and that `append` computes without loss and copies within its bounds. -/

namespace AetherStream.Wal
open Basis Bytes Checked

def copyWithin (lo : Nat) (f : MmapFile) (off : Nat) (src : List UInt8) : Option MmapFile :=
  if lo ≤ off ∧ off + src.length ≤ f.bytes.length then some (f.copyIn off src) else none

theorem copyWithin_eq_some {lo off : Nat} {f : MmapFile} {src : List UInt8} (hlo : lo ≤ off)
    (hhi : off + src.length ≤ f.bytes.length) : copyWithin lo f off src = some (f.copyIn off src) :=
  if_pos ⟨hlo, hhi⟩

namespace WalWriter

def copyRecordChecked (w : WalWriter) (header : WalRecordHeader) (payload : List UInt8) : Option WalWriter := do
  let destination := w.currentOffset.toNat
  let file ← copyWithin destination w.file destination (serializeHeader header)
  if payload.isEmpty then some { w with file := file }
  else do
    let file ← copyWithin destination file (destination + walRecordHeaderSize.toNat) payload
    some { w with file := file }

/-- `append` behind its checks, with every sum, every narrowing and every copy checked. -/
def commitChecked (w : WalWriter) (message : MessageView) (clock : UInt64) (msyncOk : Bool) (totalSize : UInt64) :
    Option (Status × WalWriter) := do
  let payloadSize ← narrow message.size
  let header : WalRecordHeader :=
    { payloadSize := payloadSize
      sequence := w.nextSequence
      timestampNs := if message.header.timestampNs ≠ 0 then message.header.timestampNs else clock
      flags := message.header.flags }
  let header := { header with checksum := computeRecordChecksum header message.payload }
  let w ← w.copyRecordChecked header message.payload
  if w.flushOnAppend && !(w.flush msyncOk).isOk then some (w.flush msyncOk, w)
  else do
    let currentOffset ← add w.currentOffset totalSize
    let nextSequence ← add w.nextSequence 1
    let recordsWritten ← add w.recordsWritten 1
    some (.ok,
      { w with currentOffset := currentOffset, nextSequence := nextSequence, recordsWritten := recordsWritten })

def appendChecked (w : WalWriter) (message : MessageView) (clock : UInt64) (msyncOk : Bool) :
    Option (Status × WalWriter) :=
  if !w.valid then some (⟨.invalidArgument, "wal writer is not open"⟩, w)
  else if !(validateMessageView message).isOk then some (validateMessageView message, w)
  else if !fitsSizeT message.size then some (⟨.invalidArgument, "payload too large"⟩, w)
  else if maxPayloadSize.toUInt64 < message.size then some (⟨.invalidArgument, "payload too large"⟩, w)
  else if 0xFFFFFFFFFFFFFFFF - walRecordHeaderSize.toUInt64 < message.size then
    some (⟨.invalidArgument, "wal record size overflow"⟩, w)
  else do
    let totalSize ← add walRecordHeaderSize.toUInt64 message.size
    if w.remainingSpace < totalSize then
      some (⟨.outOfSpace, "wal file does not have enough remaining space"⟩, w)
    else if !fitsSizeT w.currentOffset || !fitsSizeT totalSize then
      some (⟨.invalidArgument, "wal offset too large for this platform"⟩, w)
    else w.commitChecked message clock msyncOk totalSize

section CopyRecord
variable (w : WalWriter) (header : WalRecordHeader) (payload : List UInt8)

@[simp] theorem currentOffset_copyRecord : (w.copyRecord header payload).currentOffset = w.currentOffset := rfl

@[simp] theorem nextSequence_copyRecord : (w.copyRecord header payload).nextSequence = w.nextSequence := rfl

@[simp] theorem recordsWritten_copyRecord : (w.copyRecord header payload).recordsWritten = w.recordsWritten := rfl

end CopyRecord

section Append
variable {w : WalWriter} {records : List Record} (h : w.Holds records) {message : MessageView}
include h

theorem Holds.toNat_nextSequence : w.nextSequence.toNat = records.length := by
  have hlt := h.length_lt
  rw [h.sequence]
  exact UInt64.toNat_ofNat_of_lt' (show _ < 2 ^ 64 by omega)

theorem Holds.toNat_recordsWritten : w.recordsWritten.toNat = records.length := by
  have hlt := h.length_lt
  rw [h.written]
  exact UInt64.toNat_ofNat_of_lt' (show _ < 2 ^ 64 by omega)

omit h in
theorem copyRecordChecked_eq {payload : List UInt8}
    (hfits : w.currentOffset.toNat + (40 + payload.length) ≤ w.file.bytes.length) (header : WalRecordHeader) :
    w.copyRecordChecked header payload = some (w.copyRecord header payload) := by
  have hheader : copyWithin w.currentOffset.toNat w.file w.currentOffset.toNat (serializeHeader header) =
      some (w.file.copyIn w.currentOffset.toNat (serializeHeader header)) :=
    copyWithin_eq_some le_rfl (by rw [length_serializeHeader]; omega)
  have hpayload : copyWithin w.currentOffset.toNat (w.file.copyIn w.currentOffset.toNat (serializeHeader header))
      (w.currentOffset.toNat + walRecordHeaderSize.toNat) payload =
        some ((w.file.copyIn w.currentOffset.toNat (serializeHeader header)).copyIn
          (w.currentOffset.toNat + walRecordHeaderSize.toNat) payload) := by
    refine copyWithin_eq_some (Nat.le_add_right _ _) ?_
    rw [MmapFile.bytes_copyIn, length_overwrite, show walRecordHeaderSize.toNat = 40 from rfl]
    omega
  simp only [copyRecordChecked, copyRecord, hheader, hpayload, Option.bind_eq_bind, Option.bind_some]
  split_ifs <;> rfl

theorem commitChecked_eq (hm : (w.checkAppend message).isOk = true) (clock : UInt64) (msyncOk : Bool) :
    w.commitChecked message clock msyncOk (walRecordHeaderSize.toUInt64 + message.size) =
      some (w.append message clock msyncOk) := by
  have hfits := h.fits hm
  have hfile := w.file.length_bytes_lt
  have hsize := message.toNat_size
  have hcount := h.length_lt
  have hpayload := ((checkAppend_isOk_iff h).mp hm).1
  have hnarrow : narrow message.size = some message.size.toUInt32 := by
    have := message.header.payloadSize.toNat_lt
    exact narrow_eq_some (by omega)
  have hoffset : add w.currentOffset (walRecordHeaderSize.toUInt64 + message.size) =
      some (w.currentOffset + (walRecordHeaderSize.toUInt64 + message.size)) := by
    exact add_eq_some (by rw [toNat_totalSize hpayload]; omega)
  have hsequence : add w.nextSequence 1 = some (w.nextSequence + 1) :=
    add_eq_some (by rw [h.toNat_nextSequence]; simp; omega)
  have hwritten : add w.recordsWritten 1 = some (w.recordsWritten + 1) :=
    add_eq_some (by rw [h.toNat_recordsWritten]; simp; omega)
  rw [append, if_neg (by simp [hm])]
  unfold commitChecked
  simp only [hnarrow, Option.bind_eq_bind, Option.bind_some]
  rw [← recordHeader, copyRecordChecked_eq hfits, Option.bind_some]
  split_ifs
  · rfl
  · simp only [currentOffset_copyRecord, nextSequence_copyRecord, recordsWritten_copyRecord, hoffset, hsequence,
      hwritten, Option.bind_some]
    rfl

theorem appendChecked_eq (clock : UInt64) (msyncOk : Bool) :
    w.appendChecked message clock msyncOk = some (w.append message clock msyncOk) := by
  by_cases hm : message.header.payloadSize.toNat = message.payload.length
  · obtain ⟨hmax, hover⟩ := size_le_limits hm
    have hadd : add walRecordHeaderSize.toUInt64 message.size =
        some (walRecordHeaderSize.toUInt64 + message.size) := by
      have hlt := message.header.payloadSize.toNat_lt
      have hhead : walRecordHeaderSize.toUInt64.toNat = 40 := rfl
      exact add_eq_some (by rw [hhead, message.toNat_size]; omega)
    have hcheck := checkAppend_eq hm h.valid
    simp only [appendChecked, h.valid, validateMessageView_isOk_iff.mpr hm, fitsSizeT_eq_true, Bool.not_true,
      Bool.false_eq_true, if_false, Bool.or_self, if_neg hmax, if_neg hover, hadd, Option.bind_eq_bind,
      Option.bind_some]
    by_cases hspace : w.remainingSpace < walRecordHeaderSize.toUInt64 + message.size
    · rw [if_pos hspace, append, hcheck, if_pos hspace]
      rfl
    · rw [if_neg hspace]
      exact commitChecked_eq h (by rw [hcheck, if_neg hspace]; rfl) clock msyncOk
  · have hbad : (validateMessageView message).isOk = false :=
      Bool.eq_false_iff.mpr (mt validateMessageView_isOk_iff.mp hm)
    simp [appendChecked, append, checkAppend, h.valid, hbad]

end Append
end WalWriter

inductive WriterCall where
  | append (call : AppendCall)
  | flush (msyncOk : Bool)

structure WriterSession where
  writer : WalWriter
  appended : List AppendCall := []

namespace WriterSession

def step (s : WriterSession) : WriterCall → WriterSession
  | .append c =>
    let (status, w) := s.writer.append c.message c.clock c.msyncOk
    ⟨w, if status.isOk then s.appended ++ [c] else s.appended⟩
  | .flush _ => s

def run (s : WriterSession) (calls : List WriterCall) : WriterSession := calls.foldl step s

def Settled (s : WriterSession) : Prop := s.writer.Holds (s.appended.mapIdx fun i c => c.record i)

variable {s : WriterSession}

theorem Settled.step (h : s.Settled) (c : WriterCall) :
    (s.step c).Settled ∧ s.appended <+: (s.step c).appended ∧ (s.step c).writer.file.size = s.writer.file.size := by
  cases c with
  | flush msyncOk => exact ⟨h, List.prefix_rfl, rfl⟩
  | append c =>
    have happend := h.append c
    have hsize := s.writer.size_append c.message c.clock c.msyncOk
    simp only [Settled, WriterSession.step]
    split_ifs at happend ⊢
    · rw [List.length_mapIdx] at happend
      refine ⟨?_, List.prefix_append _ _, hsize⟩
      rwa [List.mapIdx_concat]
    · rw [List.append_nil] at happend
      exact ⟨happend, List.prefix_rfl, hsize⟩

theorem Settled.run (h : s.Settled) (calls : List WriterCall) :
    (s.run calls).Settled ∧ s.appended <+: (s.run calls).appended ∧
      (s.run calls).writer.file.size = s.writer.file.size := by
  induction calls generalizing s with
  | nil => exact ⟨h, List.prefix_rfl, rfl⟩
  | cons c calls ih =>
    obtain ⟨hstep, hpre, hsize⟩ := h.step c
    obtain ⟨hrun, hpre', hsize'⟩ := ih hstep
    exact ⟨hrun, hpre.trans hpre', hsize'.trans hsize⟩

theorem Settled.toNat_currentOffset (h : s.Settled) :
    s.writer.currentOffset.toNat = (s.appended.map fun c => 40 + c.message.payload.length).sum := by
  rw [h.offset, List.length_flatMap]
  congr 1
  refine List.ext_getElem (by simp) fun i hi hi' => ?_
  simp [Record.length_encode, AppendCall.record]

theorem Settled.committed (h : s.Settled) (calls : List WriterCall) :
    (s.run calls).writer.file.bytes.take s.writer.currentOffset.toNat =
      s.writer.file.bytes.take s.writer.currentOffset.toNat := by
  obtain ⟨hrun, ⟨more, hmore⟩, -⟩ := h.run calls
  have hbytes := hrun.bytes_eq
  rw [← hmore, List.mapIdx_append, List.flatMap_append, List.append_assoc] at hbytes
  rw [hbytes, List.take_left' h.offset.symm, h.text]

/-- The state of a writer after any sequence of calls, and what it can rely on: the next append
computes every sum and narrowing without loss and copies only past the committed bytes, which
no later call changes. -/
theorem writer_invariant {path : String} {size : UInt64} {flush : Bool} {createCalls : CreateCalls} {w : WalWriter}
    (hcreate : WalWriter.create path size flush createCalls = .ok w) (calls : List WriterCall) :
    let s := run ⟨w, []⟩ calls
    s.writer.file.size = size ∧ s.writer.currentOffset ≤ size ∧
      s.writer.currentOffset.toNat = (s.appended.map fun c => 40 + c.message.payload.length).sum ∧
      s.writer.nextSequence.toNat = s.appended.length ∧ s.writer.recordsWritten.toNat = s.appended.length ∧
      (∀ message clock msyncOk,
        s.writer.appendChecked message clock msyncOk = some (s.writer.append message clock msyncOk)) ∧
      ∀ later, (s.run later).writer.file.bytes.take s.writer.currentOffset.toNat =
        s.writer.file.bytes.take s.writer.currentOffset.toNat := by
  intro s
  have hstart : Settled ⟨w, []⟩ := (WalWriter.holds_create hcreate).1
  have hsize := WalWriter.size_create hcreate
  obtain ⟨hs, -, hsize'⟩ : s.Settled ∧ _ ∧ s.writer.file.size = w.file.size := hstart.run calls
  have hoffset : s.writer.currentOffset ≤ s.writer.file.size := by
    have hsum := hs.offset_add_rest
    rw [UInt64.le_iff_toNat_le, ← MmapFile.length_bytes hs.valid]
    omega
  refine ⟨hsize'.trans hsize, hsize ▸ hsize' ▸ hoffset, hs.toNat_currentOffset, ?_, ?_,
    fun _ => WalWriter.appendChecked_eq hs, hs.committed⟩
  · rw [hs.toNat_nextSequence, List.length_mapIdx]
  · rw [hs.toNat_recordsWritten, List.length_mapIdx]

theorem writer_invariant_oneByte :
    ∃ w, WalWriter.create "aether.wal" 82 false ⟨some 3, true, some 4096⟩ = .ok w ∧
      (run ⟨w, []⟩ [.append ⟨⟨{ payloadSize := 1 }, [7], by decide⟩, 0, true⟩, .flush false]).writer.currentOffset ≤
        82 := by
  obtain ⟨w, hcreate⟩ : ∃ w, WalWriter.create "aether.wal" 82 false ⟨some 3, true, some 4096⟩ = .ok w := ⟨_, rfl⟩
  exact ⟨w, hcreate, (writer_invariant hcreate _).2.1⟩

end WriterSession
end AetherStream.Wal
