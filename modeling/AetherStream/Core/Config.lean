import Mathlib.Algebra.Group.Nat.Defs
import AetherStream.Core.Status

/-! The integer types of the library, its configurations with their checks, and the message
view that producers hand to the log. -/

namespace AetherStream

def maxPayloadSize : UInt32 := 0xFFFFFFFF

def defaultQueueCapacity : UInt64 := 1024

def defaultWalSizeBytes : UInt64 := 64 * 1024 * 1024

/-- `byte_count_t` and `std::size_t` are both 64 bits wide here, so this never fails. -/
def fitsSizeT (value : UInt64) : Bool := decide (value ≤ 0xFFFFFFFFFFFFFFFF)

theorem fitsSizeT_eq_true (value : UInt64) : fitsSizeT value = true := by
  have hlt := value.toNat_lt
  rw [fitsSizeT, decide_eq_true_eq, UInt64.le_iff_toNat_le,
    show (0xFFFFFFFFFFFFFFFF : UInt64).toNat = 2 ^ 64 - 1 from rfl]
  omega

def isPowerOfTwo (value : UInt64) : Bool := value != 0 && (value &&& (value - 1)) == 0

structure QueueConfig where
  capacity : UInt64 := defaultQueueCapacity

def QueueConfig.validate (config : QueueConfig) : Status :=
  if config.capacity = 0 then ⟨.invalidArgument, "queue capacity must be nonzero"⟩
  else if !isPowerOfTwo config.capacity then
    ⟨.invalidArgument, "queue capacity must be a power of two"⟩
  else .ok

structure WalConfig where
  path : String := "aether.wal"
  fileSizeBytes : UInt64 := defaultWalSizeBytes
  flushOnCommit : Bool := false

def WalConfig.validate (config : WalConfig) : Status :=
  if config.path.isEmpty then ⟨.invalidArgument, "wal path must not be empty"⟩
  else if config.fileSizeBytes = 0 then ⟨.invalidArgument, "wal file size must be nonzero"⟩
  else .ok

structure BrokerConfig where
  queue : QueueConfig := {}
  wal : WalConfig := {}
  enableWal : Bool := false

structure MessageHeader where
  sequence : UInt64 := 0
  timestampNs : UInt64 := 0
  payloadSize : UInt32 := 0
  flags : UInt32 := 0

structure MessageView where
  header : MessageHeader
  payload : List UInt8
  length_lt : payload.length < 2 ^ 64

def MessageView.size (message : MessageView) : UInt64 := UInt64.ofNat message.payload.length

theorem MessageView.toNat_size (message : MessageView) : message.size.toNat = message.payload.length :=
  UInt64.toNat_ofNat_of_lt' message.length_lt

def validateMessageView (message : MessageView) : Status :=
  if message.header.payloadSize.toUInt64 ≠ message.size then ⟨.invalidArgument, "payload size mismatch"⟩
  else .ok

theorem validateMessageView_isOk_iff {message : MessageView} :
    (validateMessageView message).isOk = true ↔ message.header.payloadSize.toNat = message.payload.length := by
  rw [validateMessageView, ← message.toNat_size, ← UInt32.toNat_toUInt64, UInt64.toNat_inj]
  by_cases heq : message.header.payloadSize.toUInt64 = message.size
  · rw [if_neg (not_not_intro heq)]
    exact ⟨fun _ => heq, fun _ => rfl⟩
  · rw [if_pos heq]
    exact ⟨fun hok => absurd hok (by decide), fun he => absurd he heq⟩

end AetherStream
