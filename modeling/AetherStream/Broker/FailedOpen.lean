import AetherStream.Broker.PersistentBroker
import AetherStream.Io.Lifecycle

/-! What a failed `create`, or an `open` that fails with it, leaves of the file that stood at
the path before: the file is truncated by the first system call, and the later ones can fail. -/

namespace AetherStream
open Basis Posix

def failedCreateContent (size : UInt64) (calls : CreateCalls) (old : List UInt8) : List UInt8 :=
  match calls.openFd with
  | none => old
  | some _ => if calls.ftruncateOk = true ∧ size.toNat < 2 ^ 63 then List.replicate size.toNat 0 else []

theorem MmapFile.contentAfter_create {path : String} {size : UInt64} {options : MmapFileOptions} {calls : CreateCalls}
    {status : Status} (h : create path size options calls = .error status) (closeOk : Bool) (old : List UInt8) :
    contentAfter old (createTrace path size calls closeOk) =
      if path.isEmpty ∨ size = 0 then old else failedCreateContent size calls old := by
  obtain ⟨openFd, ftruncateOk, mmapAddr⟩ := calls
  unfold create at h
  unfold createTrace failedCreateContent
  by_cases hpath : path.isEmpty
  · rw [if_pos hpath, if_pos (Or.inl hpath)]
    rfl
  by_cases hsize : size = 0
  · rw [if_neg hpath, if_pos hsize, if_pos (Or.inr hsize)]
    rfl
  rw [if_neg hpath, if_neg hsize] at h
  rw [if_neg hpath, if_neg hsize, if_neg (not_or.mpr ⟨hpath, hsize⟩)]
  cases openFd with
  | none => rfl
  | some fd =>
    dsimp only at h ⊢
    split_ifs at h ⊢ with htrunc
    · cases mmapAddr with
      | none => simp [contentAfter, Call.effect]
      | some addr => cases h
    · rfl

namespace Wal.WalWriter

def createTrace (path : String) (fileSizeBytes : UInt64) (calls : CreateCalls) (closeOk : Bool) : List Call :=
  if path.isEmpty then []
  else if fileSizeBytes < walRecordHeaderSize.toUInt64 then []
  else if !fitsSizeT fileSizeBytes then []
  else MmapFile.createTrace path fileSizeBytes calls closeOk

def createConfigTrace (config : WalConfig) (calls : CreateCalls) (closeOk : Bool) : List Call :=
  if !config.validate.isOk then [] else createTrace config.path config.fileSizeBytes calls closeOk

theorem contentAfter_create {path : String} {size : UInt64} {flush : Bool} {calls : CreateCalls} {status : Status}
    (h : create path size flush calls = .error status) (closeOk : Bool) (old : List UInt8) :
    contentAfter old (createTrace path size calls closeOk) =
      if path.isEmpty ∨ size < walRecordHeaderSize.toUInt64 then old else failedCreateContent size calls old := by
  unfold create at h
  unfold createTrace
  simp only [fitsSizeT_eq_true, Bool.not_true, Bool.false_eq_true, if_false] at h ⊢
  by_cases hpath : path.isEmpty
  · rw [if_pos hpath, if_pos (Or.inl hpath)]
    rfl
  by_cases hsize : size < walRecordHeaderSize.toUInt64
  · rw [if_neg hpath, if_pos hsize, if_pos (Or.inr hsize)]
    rfl
  rw [if_neg hpath, if_neg hsize] at h
  rw [if_neg hpath, if_neg hsize, if_neg (not_or.mpr ⟨hpath, hsize⟩)]
  have hne : size ≠ 0 := by
    rintro rfl
    exact hsize (by decide)
  split at h
  · rw [MmapFile.contentAfter_create ‹_›, if_neg (not_or.mpr ⟨hpath, hne⟩)]
  · cases h

end Wal.WalWriter

namespace PersistentBroker
open Wal
variable {cap : Capacity} {α : Type*} [TriviallyCopyable α]

def rejects (b : PersistentBroker cap α) (config : BrokerConfig) : Bool :=
  b.writer.valid || !(validateQueueConfigForCapacity config.queue cap.size).isOk || !config.enableWal ||
    !(validateWalConfigForPayload config.wal (TriviallyCopyable.size α)).isOk

/-- The system calls of `open`. The writer that a successful one replaces is not open, so
nothing is closed. -/
def openTrace (b : PersistentBroker cap α) (config : BrokerConfig) (calls : CreateCalls) (closeOk : Bool) :
    List Posix.Call :=
  if b.rejects config then [] else WalWriter.createConfigTrace config.wal calls closeOk

theorem contentAfter_open {b : PersistentBroker cap α} {config : BrokerConfig} {calls : CreateCalls}
    (h : (b.openConfig config calls).1.isOk = false) (closeOk : Bool) (old : List UInt8) :
    contentAfter old (b.openTrace config calls closeOk) =
      if b.rejects config then old else failedCreateContent config.wal.fileSizeBytes calls old := by
  unfold openTrace
  cases hreject : b.rejects config with
  | true => rfl
  | false =>
    simp only [rejects, Bool.or_eq_false_iff, Bool.not_eq_false'] at hreject
    obtain ⟨⟨⟨hwriter, hqueue⟩, henable⟩, hwal⟩ := hreject
    obtain ⟨hconfig, hpath, hsize⟩ := walConfig_of_validate hwal
    have hcreate : ∃ status, WalWriter.create config.wal.path config.wal.fileSizeBytes config.wal.flushOnCommit calls =
        .error status := by
      simp only [openConfig, WalWriter.createConfig, hwriter, hqueue, henable, hwal, hconfig, Bool.not_true,
        Bool.false_eq_true, if_false] at h
      split at h
      · exact ⟨_, ‹_›⟩
      · contradiction
    obtain ⟨status, hcreate⟩ := hcreate
    have hafter := WalWriter.contentAfter_create hcreate closeOk old
    rw [if_neg (not_or.mpr ⟨hpath, hsize⟩)] at hafter
    simpa [WalWriter.createConfigTrace, hconfig] using hafter

/-- A failed `create` leaves an existing file as it was only if it failed at its own checks or
at the first call: a file that was opened is empty if it could not be resized, and zero if it
could not be mapped. So it is for the writer and the broker that call it. -/
theorem failed_open_content (path : String) (size : UInt64) (options : MmapFileOptions) (flush : Bool)
    (b : PersistentBroker cap α) (config : BrokerConfig) (calls : CreateCalls) (closeOk : Bool) (old : List UInt8) :
    (∀ status, MmapFile.create path size options calls = .error status →
      contentAfter old (MmapFile.createTrace path size calls closeOk) =
        if path.isEmpty ∨ size = 0 then old else failedCreateContent size calls old) ∧
    (∀ status, WalWriter.create path size flush calls = .error status →
      contentAfter old (WalWriter.createTrace path size calls closeOk) =
        if path.isEmpty ∨ size < walRecordHeaderSize.toUInt64 then old else failedCreateContent size calls old) ∧
    ((b.openConfig config calls).1.isOk = false → contentAfter old (b.openTrace config calls closeOk) =
      if b.rejects config then old else failedCreateContent config.wal.fileSizeBytes calls old) :=
  ⟨fun _ h => MmapFile.contentAfter_create h closeOk old, fun _ h => WalWriter.contentAfter_create h closeOk old,
    fun h => contentAfter_open h closeOk old⟩

/-- A file of `2 ^ 63` bytes: the checks of the broker let it pass, `ftruncate` does not, and
the log that was there is gone. -/
theorem failed_open_empties :
    MmapFile.create "aether.wal" 0x8000000000000000 {} ⟨some 3, true, none⟩ =
        .error ⟨.ioError, "failed to resize mmap file"⟩ ∧
      contentAfter [1, 2, 3] (MmapFile.createTrace "aether.wal" 0x8000000000000000 ⟨some 3, true, none⟩ true) = [] ∧
      (({} : PersistentBroker .least UInt8).openConfig
        { queue := { capacity := Capacity.least.size }, wal := { fileSizeBytes := 0x8000000000000000 },
          enableWal := true }
        ⟨some 3, true, none⟩).1 = ⟨.ioError, "failed to resize mmap file"⟩ ∧
      contentAfter [1, 2, 3] (({} : PersistentBroker .least UInt8).openTrace
        { queue := { capacity := Capacity.least.size }, wal := { fileSizeBytes := 0x8000000000000000 },
          enableWal := true }
        ⟨some 3, true, none⟩ true) = [] := by
  refine ⟨rfl, ?_, ?_, ?_⟩ <;> decide +kernel

end PersistentBroker
end AetherStream
