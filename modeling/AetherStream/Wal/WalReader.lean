import AetherStream.Io.MmapFile
import AetherStream.Wal.Record

/-! `WalReader`: the cursor over a mapped log, one call of `next` at a time, and the replay
loop around it. -/

namespace AetherStream.Wal
open Basis

structure WalReader where
  file : MmapFile
  currentOffset : UInt64 := 0
  recordsRead : UInt64 := 0

/-- The part of `next` that looks at the bytes behind the cursor. -/
def readTail (remaining : UInt64) (tail : List UInt8) : Except Status (WalRecordHeader × List UInt8) :=
  if remaining < walRecordHeaderSize.toUInt64 then
    -- a short zero tail is slack of the preallocated file, any other a partial record
    if isZeroFilled tail then .error ⟨.empty, ""⟩ else .error ⟨.empty, "partial wal record"⟩
  else match deserializeHeader (tail.take walRecordHeaderSize.toNat) with
    | .error status => .error status
    | .ok header =>
      if header.magic = 0 ∧ isZeroFilled tail then .error ⟨.empty, ""⟩
      else if !(validateHeaderShape header).isOk then .error (validateHeaderShape header)
      else
        let totalSize := recordTotalSize header
        if totalSize < header.headerSize.toUInt64 ∨ remaining < totalSize then
          .error ⟨.empty, "partial wal record"⟩
        else if !fitsSizeT totalSize then
          .error ⟨.corruptedRecord, "wal record too large for this platform"⟩
        else
          let payload := (tail.drop walRecordHeaderSize.toNat).take header.payloadSize.toNat
          if !validateRecordChecksum header payload then .error ⟨.corruptedRecord, "wal checksum mismatch"⟩
          else .ok (header, payload)

namespace WalReader

def openPath (path : String) (content : FileContent) (calls : OpenCalls) : Expected WalReader :=
  match MmapFile.openExisting path { flushOnDestroy := false } content calls with
  | .error status => .ofStatus status
  | .ok file => .ok { file := file }

def valid (r : WalReader) : Bool := r.file.valid

def next (r : WalReader) : Expected WalRecordView × WalReader :=
  if !r.valid then (.ofStatus ⟨.invalidArgument, "wal reader is not open"⟩, r)
  else if r.file.size ≤ r.currentOffset then (.ofStatus ⟨.empty, ""⟩, r)
  else
    let remaining := r.file.size - r.currentOffset
    if !fitsSizeT r.currentOffset || !fitsSizeT remaining then
      (.ofStatus ⟨.invalidArgument, "wal offset too large for this platform"⟩, r)
    else
      let tail := (r.file.bytes.drop r.currentOffset.toNat).take remaining.toNat
      match readTail remaining tail with
      | .error status => (.ofStatus status, r)
      | .ok (header, payload) =>
        (.ok ⟨header, payload, r.currentOffset⟩,
          { r with currentOffset := r.currentOffset + recordTotalSize header
                   recordsRead := r.recordsRead + 1 })

def reset (r : WalReader) : Status × WalReader :=
  if !r.valid then (⟨.invalidArgument, "wal reader is not open"⟩, r)
  else (.ok, { r with currentOffset := 0, recordsRead := 0 })

def nexts : Nat → WalReader → List (Expected WalRecordView) × WalReader
  | 0, r => ([], r)
  | n + 1, r =>
    let (result, r) := r.next
    let (results, r) := nexts n r
    (result :: results, r)

/-- The `while (true)` of `replay`, cut after `fuel` iterations. The visitor's captured
variables are its state. -/
def replayLoop {σ : Type*} (visitor : σ → WalRecordView → Status × σ) :
    Nat → WalReader → σ → Option (Status × WalReader × σ)
  | 0, _, _ => none
  | fuel + 1, r, s =>
    match r.next with
    | (.ok view, r) =>
      let (status, s) := visitor s view
      if !status.isOk then some (status, r, s) else replayLoop visitor fuel r s
    | (.error status, r) => some (if status.code = .empty then .ok else status, r, s)

def collect (views : List WalRecordView) (view : WalRecordView) : Status × List WalRecordView :=
  (.ok, views ++ [view])

end WalReader
end AetherStream.Wal
