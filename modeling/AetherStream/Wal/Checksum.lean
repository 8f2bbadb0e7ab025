import AetherStream.Basis.Detecting
import AetherStream.Wal.Grammar

/-! What the checksum of a record detects, and what it does not cover. -/

namespace AetherStream.Wal
open Basis Bytes

theorem crcShift_eq (crc : UInt32) :
    crcShift crc = (crc >>> 1) ^^^ if crc.toNat % 2 = 1 then 0xEDB88320 else 0 := by
  have hbit : crc &&& 1 = if crc.toNat % 2 = 1 then 1 else 0 := by
    apply UInt32.toNat_inj.mp
    rw [UInt32.toNat_and, show (1 : UInt32).toNat = 1 from rfl, Nat.and_one_is_mod]
    split_ifs with hodd
    · exact hodd
    · exact Nat.mod_two_ne_one.mp hodd
  rw [crcShift, hbit]
  split_ifs <;> rfl

theorem toNat_half (crc : UInt32) : (crc >>> 1).toNat = crc.toNat / 2 := by
  rw [UInt32.toNat_shiftRight]
  exact Nat.shiftRight_one _

theorem testBit_crcShift (crc : UInt32) : (crcShift crc).toNat.testBit 31 = decide (crc.toNat % 2 = 1) := by
  have hhalf : crc.toNat / 2 < 2 ^ 31 := by
    have := crc.toNat_lt
    omega
  rw [crcShift_eq, UInt32.toNat_xor, toNat_half, Nat.testBit_xor, Nat.testBit_lt_two_pow hhalf]
  split_ifs with hodd
  · rw [decide_eq_true hodd]
    decide
  · rw [decide_eq_false hodd]
    decide

theorem crcShift_injective : Function.Injective crcShift := by
  intro x y h
  have hparity : x.toNat % 2 = 1 ↔ y.toNat % 2 = 1 := by
    rw [← decide_eq_decide, ← testBit_crcShift, ← testBit_crcShift, h]
  have hhalf : x.toNat / 2 = y.toNat / 2 := by
    rw [crcShift_eq, crcShift_eq, if_congr hparity rfl rfl, UInt32.xor_left_inj] at h
    rw [← toNat_half, h, toNat_half]
  apply UInt32.toNat_inj.mp
  omega

theorem detecting_crcByte : Detecting crcByte where
  state b := by
    intro x y h
    exact (UInt32.xor_left_inj _).mp (crcShift_injective.iterate 8 h)
  letter s := by
    intro b c h
    have hbyte := (UInt32.xor_right_inj _).mp (crcShift_injective.iterate 8 h)
    apply UInt8.toNat_inj.mp
    simpa using congrArg UInt32.toNat hbyte

theorem serializeHeader_append (h : WalRecordHeader) (payload : List UInt8) :
    serializeHeader h ++ payload = encodeFields ((headerFields h).take 7) ++ (toLe 4 h.checksum.toNat ++
      (toLe 4 h.flags.toNat ++ payload)) := by
  rw [serializeHeader_eq]
  simp [headerFields, encodeFields]

namespace Record

def covered (r : Record) : List UInt8 := serializeHeader { r.header with checksum := 0 } ++ r.payload

theorem computeRecordChecksum_eq (r : Record) : computeRecordChecksum r.header r.payload = crc32 r.covered := by
  simp only [computeRecordChecksum, crc32, crcUpdate, covered, List.foldl_append]

section Field
variable (r : Record)

theorem width_front : (encodeFields ((headerFields r.header).take 7)).length = 32 := by
  rw [length_encodeFields]
  rfl

theorem le_length_encode : 32 + 4 ≤ r.encode.length := by
  rw [length_encode]
  omega

theorem overwrite_encode {src : List UInt8} (h : src.length = 4) :
    overwrite r.encode 32 src =
      encodeFields ((headerFields r.header).take 7) ++ (src ++ (toLe 4 r.header.flags.toNat ++ r.payload)) := by
  rw [overwrite_eq (by rw [h]; exact r.le_length_encode), h, encode, serializeHeader_append,
    List.take_left' r.width_front, ← List.drop_drop, List.drop_left' r.width_front, List.drop_left' (length_toLe ..),
    List.append_assoc]

theorem covered_eq : r.covered = overwrite r.encode 32 (toLe 4 0) := by
  rw [overwrite_encode r (length_toLe ..), covered, serializeHeader_append]
  rfl

theorem overwrite_checksum : overwrite r.encode 32 (toLe 4 r.header.checksum.toNat) = r.encode := by
  rw [overwrite_encode r (length_toLe ..), encode, serializeHeader_append]

theorem slice_checksum : (r.encode.drop 32).take 4 = toLe 4 r.header.checksum.toNat := by
  rw [encode, serializeHeader_append, List.drop_left' r.width_front, List.take_left' (length_toLe ..)]

end Field

theorem checksum_eq_of_slice {r r' : Record} (h : (r'.encode.drop 32).take 4 = (r.encode.drop 32).take 4) :
    r'.header.checksum = r.header.checksum := by
  have hle := congrArg ofLe h
  rw [slice_checksum, slice_checksum, ofLe_toLe, ofLe_toLe, Nat.mod_eq_of_lt (by simpa using UInt32.toNat_lt _),
    Nat.mod_eq_of_lt (by simpa using UInt32.toNat_lt _)] at hle
  exact UInt32.toNat_inj.mp hle

theorem Sealed.eq_of_set {r r' : Record} (hr : r.Sealed) (hr' : r'.Sealed) {j : Nat} {b c : UInt8}
    (hj : r.encode[j]? = some c) (hset : r'.encode = r.encode.set j b) : b = c := by
  have hlen (v : Nat) : 32 + (toLe 4 v).length ≤ r.encode.length := by
    rw [length_toLe]
    exact r.le_length_encode
  have hsum : r.header.checksum = crc32 r.covered := hr.checksum.trans r.computeRecordChecksum_eq
  have hsum' : r'.header.checksum = crc32 r'.covered := hr'.checksum.trans r'.computeRecordChecksum_eq
  by_cases hfield : 32 ≤ j ∧ j < 32 + (toLe 4 0).length
  · -- the checksum was changed, but not what it is computed over
    have hcovered : r'.covered = r.covered := by
      rw [covered_eq, covered_eq, hset, overwrite_set_self (hlen 0) hfield]
    have hencode : r.encode.set j b = r.encode := by
      rw [← hset, ← r'.overwrite_checksum, hset, hsum', hcovered, ← hsum,
        overwrite_set_self (hlen _) (by simpa using hfield), r.overwrite_checksum]
    have hget : (r.encode.set j b)[j]? = some b := List.getElem?_set_self (List.getElem?_eq_some_iff.mp hj).1
    rw [hencode, hj] at hget
    exact (Option.some.inj hget).symm
  · have hcovered : r'.covered = r.covered.set j b := by
      rw [covered_eq, covered_eq, hset, overwrite_set (hlen 0) hfield]
    have hchecksum : r'.header.checksum = r.header.checksum := by
      refine checksum_eq_of_slice ?_
      rw [hset, slice_set (by simpa using hfield)]
    rw [hsum, hsum', hcovered, crc32, crc32, UInt32.xor_left_inj] at hchecksum
    refine detecting_crcByte.eq_of_foldl_set ?_ hchecksum
    rw [covered_eq, getElem?_overwrite (hlen 0), if_neg hfield]
    exact hj

end Record

end AetherStream.Wal
