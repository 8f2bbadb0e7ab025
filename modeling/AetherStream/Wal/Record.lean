import AetherStream.Basis.Bytes
import AetherStream.Core.Config

/-! The v1 record header, its byte layout and its checksum. -/

namespace AetherStream.Wal
open Basis Bytes

def walRecordMagic : UInt32 :=
  (0x41 : UInt32) ||| (0x57 : UInt32) <<< 8 ||| (0x41 : UInt32) <<< 16 ||| (0x4C : UInt32) <<< 24

def walFormatVersion : UInt16 := 1

def walRecordHeaderSize : UInt16 := 40

structure WalRecordHeader where
  magic : UInt32 := walRecordMagic
  version : UInt16 := walFormatVersion
  headerSize : UInt16 := walRecordHeaderSize
  payloadSize : UInt32 := 0
  sequence : UInt64 := 0
  timestampNs : UInt64 := 0
  checksum : UInt32 := 0
  flags : UInt32 := 0
  deriving DecidableEq, Repr

structure WalRecordView where
  header : WalRecordHeader
  payload : List UInt8
  offset : UInt64
  deriving DecidableEq, Repr

def writeLe (n : Nat) (bytes : List UInt8) (offset value : Nat) : List UInt8 :=
  (List.range n).foldl (fun bytes i => bytes.set (offset + i) (UInt8.ofNat (value >>> (8 * i) &&& 0xFF))) bytes

def writeU16Le (bytes : List UInt8) (offset : Nat) (value : UInt16) : List UInt8 :=
  writeLe 2 bytes offset value.toNat

def writeU32Le (bytes : List UInt8) (offset : Nat) (value : UInt32) : List UInt8 :=
  writeLe 4 bytes offset value.toNat

def writeU64Le (bytes : List UInt8) (offset : Nat) (value : UInt64) : List UInt8 :=
  writeLe 8 bytes offset value.toNat

def readLe (n : Nat) (bytes : List UInt8) (offset : Nat) : Nat :=
  (List.range n).foldl (fun value i => value ||| (bytes.getD (offset + i) 0).toNat <<< (8 * i)) 0

def readU16Le (bytes : List UInt8) (offset : Nat) : UInt16 := UInt16.ofNat (readLe 2 bytes offset)

def readU32Le (bytes : List UInt8) (offset : Nat) : UInt32 := UInt32.ofNat (readLe 4 bytes offset)

def readU64Le (bytes : List UInt8) (offset : Nat) : UInt64 := UInt64.ofNat (readLe 8 bytes offset)

/-- Bytes 12 to 15 are reserved and stay zero. -/
def serializeHeader (header : WalRecordHeader) : List UInt8 :=
  let bytes := List.replicate 40 0
  let bytes := writeU32Le bytes 0 header.magic
  let bytes := writeU16Le bytes 4 header.version
  let bytes := writeU16Le bytes 6 header.headerSize
  let bytes := writeU32Le bytes 8 header.payloadSize
  let bytes := writeU64Le bytes 16 header.sequence
  let bytes := writeU64Le bytes 24 header.timestampNs
  let bytes := writeU32Le bytes 32 header.checksum
  writeU32Le bytes 36 header.flags

def deserializeHeader (bytes : List UInt8) : Expected WalRecordHeader :=
  if bytes.length < walRecordHeaderSize.toNat then .ofStatus ⟨.empty, "partial wal header"⟩
  else .ok
    { magic := readU32Le bytes 0
      version := readU16Le bytes 4
      headerSize := readU16Le bytes 6
      payloadSize := readU32Le bytes 8
      sequence := readU64Le bytes 16
      timestampNs := readU64Le bytes 24
      checksum := readU32Le bytes 32
      flags := readU32Le bytes 36 }

def recordTotalSize (header : WalRecordHeader) : UInt64 :=
  header.headerSize.toUInt64 + header.payloadSize.toUInt64

def isZeroFilled (bytes : List UInt8) : Bool := bytes.all (· == 0)

theorem isZeroFilled_iff {bytes : List UInt8} : isZeroFilled bytes = true ↔ ∀ b ∈ bytes, b = 0 := by
  simp [isZeroFilled]

def validateHeaderShape (header : WalRecordHeader) : Status :=
  if header.magic ≠ walRecordMagic then ⟨.corruptedRecord, "invalid wal magic"⟩
  else if header.version ≠ walFormatVersion then ⟨.corruptedRecord, "unsupported wal version"⟩
  else if header.headerSize ≠ walRecordHeaderSize then ⟨.corruptedRecord, "invalid wal header size"⟩
  else if maxPayloadSize < header.payloadSize then ⟨.corruptedRecord, "invalid wal payload size"⟩
  else .ok

def crcShift (crc : UInt32) : UInt32 := (crc >>> 1) ^^^ (0xEDB88320 &&& (0 - (crc &&& 1)))

def crcByte (crc : UInt32) (byte : UInt8) : UInt32 := crcShift^[8] (crc ^^^ byte.toUInt32)

def crcUpdate (crc : UInt32) (bytes : List UInt8) : UInt32 := bytes.foldl crcByte crc

def crc32 (bytes : List UInt8) : UInt32 := crcUpdate 0xFFFFFFFF bytes ^^^ 0xFFFFFFFF

def computeRecordChecksum (header : WalRecordHeader) (payload : List UInt8) : UInt32 :=
  let serialized := serializeHeader { header with checksum := 0 }
  crcUpdate (crcUpdate 0xFFFFFFFF serialized) payload ^^^ 0xFFFFFFFF

def validateRecordChecksum (header : WalRecordHeader) (payload : List UInt8) : Bool :=
  header.checksum == computeRecordChecksum header payload

theorem writeLe_eq {n off v : Nat} {bytes : List UInt8} (h : off + n ≤ bytes.length) :
    writeLe n bytes off v = overwrite bytes off (toLe n v) := by
  unfold writeLe toLe
  rw [foldl_set_range (fun i => UInt8.ofNat (v >>> (8 * i) &&& 0xFF)) h]
  congr 2
  funext i
  apply UInt8.toNat_inj.mp
  rw [UInt8.toNat_ofNat', UInt8.toNat_ofNat', show 0xFF = 2 ^ 8 - 1 by rfl,
    Nat.and_two_pow_sub_one_eq_mod, Nat.mod_mod]

theorem readLe_eq {n off : Nat} {bytes : List UInt8} (h : off + n ≤ bytes.length) :
    readLe n bytes off = ofLe ((bytes.drop off).take n) := by
  unfold readLe
  rw [foldl_or_shift n fun i => bytes.getD (off + i) 0]
  congr 1
  apply List.ext_getElem
  · simp
    omega
  · intro i hi hi'
    simp only [List.length_map, List.length_range] at hi
    simp [List.getD_eq_getElem?_getD, List.getElem?_eq_getElem (show off + i < bytes.length by omega)]

def headerFields (h : WalRecordHeader) : List (Nat × Nat) :=
  [(4, h.magic.toNat), (2, h.version.toNat), (2, h.headerSize.toNat), (4, h.payloadSize.toNat), (4, 0),
    (8, h.sequence.toNat), (8, h.timestampNs.toNat), (4, h.checksum.toNat), (4, h.flags.toNat)]

theorem writeLe_zeros {pre : List UInt8} {off n v m k : Nat} (hpre : pre.length = off) (hk : n + m = k) :
    writeLe n (pre ++ List.replicate k 0) off v = pre ++ toLe n v ++ List.replicate m 0 := by
  rw [writeLe_eq (by simp; omega)]
  exact overwrite_replicate hpre (by simpa using hk) 0

theorem serializeHeader_eq (h : WalRecordHeader) : serializeHeader h = encodeFields (headerFields h) := by
  have hgap : List.replicate 28 (0 : UInt8) = toLe 4 0 ++ List.replicate 24 0 := by decide
  simp only [serializeHeader, writeU32Le, writeU16Le, writeU64Le]
  rw [← List.nil_append (List.replicate 40 (0 : UInt8)), writeLe_zeros (m := 36), writeLe_zeros (m := 34),
    writeLe_zeros (m := 32), writeLe_zeros (m := 28), hgap, ← List.append_assoc, writeLe_zeros (m := 16),
    writeLe_zeros (m := 8), writeLe_zeros (m := 4), writeLe_zeros (m := 0)] <;>
    simp [encodeFields, headerFields]

theorem length_serializeHeader (h : WalRecordHeader) : (serializeHeader h).length = 40 := by
  rw [serializeHeader_eq, length_encodeFields]
  rfl

section Fields
variable {fields : List (Nat × Nat)} {i off : Nat}

theorem readLe_encodeFields {n v : Nat} (hi : fields[i]? = some (n, v)) (hoff : fieldsWidth (fields.take i) = off)
    (rest : List UInt8) : readLe n (encodeFields fields ++ rest) off = v % 256 ^ n := by
  obtain ⟨hlt, hget⟩ := List.getElem?_eq_some_iff.mp hi
  have hsplit : fields = fields.take i ++ (n, v) :: fields.drop (i + 1) := by
    rw [← hget, ← List.drop_eq_getElem_cons hlt, List.take_append_drop]
  have hwidth : off + n ≤ (encodeFields fields).length := by
    rw [hsplit, length_encodeFields, ← hoff]
    simp [fieldsWidth]
  rw [readLe_eq (by rw [List.length_append]; omega), hsplit, ← hoff, slice_encodeFields, ofLe_toLe]

theorem readU16Le_encodeFields {v : UInt16} (hi : fields[i]? = some (2, v.toNat))
    (hoff : fieldsWidth (fields.take i) = off) (rest : List UInt8) :
    readU16Le (encodeFields fields ++ rest) off = v := by
  rw [readU16Le, readLe_encodeFields hi hoff, Nat.mod_eq_of_lt (by simpa using v.toNat_lt), UInt16.ofNat_toNat]

theorem readU32Le_encodeFields {v : UInt32} (hi : fields[i]? = some (4, v.toNat))
    (hoff : fieldsWidth (fields.take i) = off) (rest : List UInt8) :
    readU32Le (encodeFields fields ++ rest) off = v := by
  rw [readU32Le, readLe_encodeFields hi hoff, Nat.mod_eq_of_lt (by simpa using v.toNat_lt), UInt32.ofNat_toNat]

theorem readU64Le_encodeFields {v : UInt64} (hi : fields[i]? = some (8, v.toNat))
    (hoff : fieldsWidth (fields.take i) = off) (rest : List UInt8) :
    readU64Le (encodeFields fields ++ rest) off = v := by
  rw [readU64Le, readLe_encodeFields hi hoff, Nat.mod_eq_of_lt (by simpa using v.toNat_lt), UInt64.ofNat_toNat]

end Fields

theorem deserializeHeader_serializeHeader (h : WalRecordHeader) (rest : List UInt8) :
    deserializeHeader (serializeHeader h ++ rest) = .ok h := by
  have hlen : ¬ (serializeHeader h ++ rest).length < walRecordHeaderSize.toNat := by
    rw [List.length_append, length_serializeHeader]
    simp [walRecordHeaderSize]
  rw [deserializeHeader, if_neg hlen, serializeHeader_eq]
  have hmagic : readU32Le (encodeFields (headerFields h) ++ rest) 0 = h.magic :=
    readU32Le_encodeFields (i := 0) rfl rfl rest
  have hversion : readU16Le (encodeFields (headerFields h) ++ rest) 4 = h.version :=
    readU16Le_encodeFields (i := 1) rfl rfl rest
  have hheader : readU16Le (encodeFields (headerFields h) ++ rest) 6 = h.headerSize :=
    readU16Le_encodeFields (i := 2) rfl rfl rest
  have hpayload : readU32Le (encodeFields (headerFields h) ++ rest) 8 = h.payloadSize :=
    readU32Le_encodeFields (i := 3) rfl rfl rest
  have hsequence : readU64Le (encodeFields (headerFields h) ++ rest) 16 = h.sequence :=
    readU64Le_encodeFields (i := 5) rfl rfl rest
  have htimestamp : readU64Le (encodeFields (headerFields h) ++ rest) 24 = h.timestampNs :=
    readU64Le_encodeFields (i := 6) rfl rfl rest
  have hchecksum : readU32Le (encodeFields (headerFields h) ++ rest) 32 = h.checksum :=
    readU32Le_encodeFields (i := 7) rfl rfl rest
  have hflags : readU32Le (encodeFields (headerFields h) ++ rest) 36 = h.flags :=
    readU32Le_encodeFields (i := 8) rfl rfl rest
  rw [hmagic, hversion, hheader, hpayload, hsequence, htimestamp, hchecksum, hflags]

theorem readLe_take {bytes : List UInt8} {n off k : Nat} (hn : off + n ≤ k) (hk : k ≤ bytes.length) :
    readLe n (bytes.take k) off = readLe n bytes off := by
  rw [readLe_eq (by simp; omega), readLe_eq (by omega), List.drop_take, List.take_take,
    Nat.min_eq_left (by omega)]

theorem deserializeHeader_take {bytes : List UInt8} (h : 40 ≤ bytes.length) :
    deserializeHeader (bytes.take 40) = deserializeHeader bytes := by
  have hread (n off : Nat) (hn : off + n ≤ 40) : readLe n (bytes.take 40) off = readLe n bytes off :=
    readLe_take hn h
  have hsize : walRecordHeaderSize.toNat = 40 := rfl
  unfold deserializeHeader readU16Le readU32Le readU64Le
  rw [if_neg (by simp [hsize]; omega), if_neg (by omega), hread 4 0 (by decide), hread 2 4 (by decide),
    hread 2 6 (by decide), hread 4 8 (by decide), hread 8 16 (by decide), hread 8 24 (by decide),
    hread 4 32 (by decide), hread 4 36 (by decide)]

theorem readLe_lt (n : Nat) (bytes : List UInt8) (off : Nat) : readLe n bytes off < 256 ^ n := by
  have hlt := ofLe_lt ((List.range n).map fun i => bytes.getD (off + i) 0)
  rw [List.length_map, List.length_range] at hlt
  unfold readLe
  rwa [foldl_or_shift n fun i => bytes.getD (off + i) 0]

theorem toNat_readU16Le (bytes : List UInt8) (off : Nat) : (readU16Le bytes off).toNat = readLe 2 bytes off :=
  UInt16.toNat_ofNat_of_lt' (readLe_lt 2 bytes off)

theorem toNat_readU32Le (bytes : List UInt8) (off : Nat) : (readU32Le bytes off).toNat = readLe 4 bytes off :=
  UInt32.toNat_ofNat_of_lt' (readLe_lt 4 bytes off)

theorem toNat_readU64Le (bytes : List UInt8) (off : Nat) : (readU64Le bytes off).toNat = readLe 8 bytes off :=
  UInt64.toNat_ofNat_of_lt' (readLe_lt 8 bytes off)

theorem toLe_readLe {n off : Nat} {bytes : List UInt8} (h : off + n ≤ bytes.length) :
    toLe n (readLe n bytes off) = (bytes.drop off).take n := by
  have hlen : ((bytes.drop off).take n).length = n := by
    simp
    omega
  rw [readLe_eq h]
  nth_rewrite 1 [← hlen]
  exact toLe_ofLe _

theorem serializeHeader_of_deserializeHeader {bytes : List UInt8} {h : WalRecordHeader}
    (hlen : 40 ≤ bytes.length) (hd : deserializeHeader bytes = .ok h) :
    serializeHeader h = overwrite (bytes.take 40) 12 [0, 0, 0, 0] := by
  rw [deserializeHeader, if_neg (by simpa [walRecordHeaderSize] using hlen)] at hd
  have hslice (off n m : Nat) : (bytes.drop off).take n ++ (bytes.drop (off + n)).take m =
      (bytes.drop off).take (n + m) := by
    rw [List.take_add, List.drop_drop]
  have hfront : bytes.take 12 = (bytes.drop 0).take 4 ++ ((bytes.drop 4).take 2 ++ ((bytes.drop 6).take 2 ++
      (bytes.drop 8).take 4)) := by
    rw [hslice 6 2 4, hslice 4 2 6, hslice 0 4 8]
    rfl
  have hback : (bytes.drop 16).take 24 =
      (bytes.drop 16).take 8 ++ ((bytes.drop 24).take 8 ++ ((bytes.drop 32).take 4 ++ (bytes.drop 36).take 4)) := by
    rw [hslice 32 4 4, hslice 24 8 8, hslice 16 8 16]
  have hread (n off : Nat) (hn : off + n ≤ 40) : toLe n (readLe n bytes off) = (bytes.drop off).take n :=
    toLe_readLe (hn.trans hlen)
  rw [overwrite_eq (by simp; omega), List.take_take, List.drop_take, ← Except.ok.inj hd, serializeHeader_eq]
  simp only [encodeFields, headerFields, List.flatMap_cons, List.flatMap_nil, toNat_readU16Le, toNat_readU32Le,
    toNat_readU64Le, List.append_nil]
  rw [hread 4 0 (by decide), hread 2 4 (by decide), hread 2 6 (by decide), hread 4 8 (by decide),
    hread 8 16 (by decide), hread 8 24 (by decide), hread 4 32 (by decide), hread 4 36 (by decide)]
  show _ = bytes.take 12 ++ [0, 0, 0, 0] ++ (bytes.drop 16).take 24
  rw [hfront, hback]
  simp only [List.append_assoc]
  rfl

theorem serializeHeader_injective : Function.Injective serializeHeader := by
  intro h h' heq
  have hd := deserializeHeader_serializeHeader h []
  rw [heq, deserializeHeader_serializeHeader] at hd
  exact (Except.ok.inj hd).symm

/-- The codec of the header: no field is lost, and of the 40 bytes it is read from only the
four reserved ones are. -/
theorem header_codec :
    (∀ h, deserializeHeader (serializeHeader h) = .ok h) ∧
      (∀ bytes : List UInt8, 40 ≤ bytes.length → ∃ h, deserializeHeader bytes = .ok h ∧
        serializeHeader h = bytes.take 12 ++ [0, 0, 0, 0] ++ (bytes.take 40).drop 16 ∧
        (serializeHeader h = bytes.take 40 ↔ ∀ i, 12 ≤ i → i < 16 → bytes[i]? = some 0)) ∧
      ∀ h h', h ≠ h' → serializeHeader h ≠ serializeHeader h' := by
  refine ⟨fun h => ?_, fun bytes hlen => ?_, fun h h' => serializeHeader_injective.ne⟩
  · have hd := deserializeHeader_serializeHeader h []
    rwa [List.append_nil] at hd
  · obtain ⟨h, hd⟩ : ∃ h, deserializeHeader bytes = .ok h := by
      rw [deserializeHeader, if_neg (by simpa [walRecordHeaderSize] using hlen)]
      exact ⟨_, rfl⟩
    have hbytes := serializeHeader_of_deserializeHeader hlen hd
    have hfits : 12 + [0, 0, 0, (0 : UInt8)].length ≤ (bytes.take 40).length := by
      simp
      omega
    refine ⟨h, hd, ?_, ?_⟩
    · rw [hbytes, overwrite_eq hfits, List.take_take]
      rfl
    · rw [hbytes, overwrite_eq_self_iff hfits, show [0, 0, 0, (0 : UInt8)] = List.replicate 4 0 from rfl,
        List.length_replicate, slice_eq_replicate_iff]
      refine forall_congr' fun i => imp_congr_right fun _ => imp_congr_right fun hi => ?_
      rw [List.getElem?_take_of_lt (by omega)]

end AetherStream.Wal
