import AetherStream.Basis.BitPolynomial
import AetherStream.Wal.Checksum

/-! The checksum of a record is the CRC-32 of IEEE 802.3: the remainder of the message
modulo the generator, not only some function that the writer and the reader share. -/

namespace AetherStream.Wal
open Basis BitPolynomial Polynomial

noncomputable def crc32Generator : (ZMod 2)[X] :=
  X ^ 32 + X ^ 26 + X ^ 23 + X ^ 22 + X ^ 16 + X ^ 12 + X ^ 11 + X ^ 10 + X ^ 8 + X ^ 7 + X ^ 5 + X ^ 4 + X ^ 2 + X + 1

def messageBits (bytes : List UInt8) : List Bool := bytes.flatMap fun byte => bitsOf 8 byte.toNat

noncomputable def ieeeCrc32 (bytes : List UInt8) : UInt32 :=
  UInt32.ofNat (word 32 (check crc32Generator 32 (messageBits bytes)))

theorem crc32Generator_eq : crc32Generator = X ^ 32 + ofWord 32 0xEDB88320 := by
  have hbits : bitsOf 32 0xEDB88320 =
      [false, false, false, false, false, true, false, false, true, true, false, false, false, false, false, true,
        false, false, false, true, true, true, false, true, true, false, true, true, false, true, true, true] := by
    decide
  rw [ofWord, hbits]
  simp only [ofBits, coeffOf, if_true, Bool.false_eq_true, if_false, C_0, C_1, List.length_cons, List.length_nil,
    zero_mul, one_mul, zero_add, add_zero, pow_zero, crc32Generator]
  ring

theorem isGenerator_crc32Generator : IsGenerator crc32Generator 32 := by
  rw [crc32Generator_eq]
  exact isGenerator_add (degree_ofWord_lt 32 _)

theorem isCoprime_crc32Generator : IsCoprime crc32Generator X := by
  refine ⟨1, -(X ^ 31 + X ^ 25 + X ^ 22 + X ^ 21 + X ^ 15 + X ^ 11 + X ^ 10 + X ^ 9 + X ^ 7 + X ^ 6 + X ^ 4 + X ^ 3 +
    X + 1), ?_⟩
  unfold crc32Generator
  ring

noncomputable def register (crc : UInt32) : (ZMod 2)[X] := ofWord 32 crc.toNat

theorem degree_register_lt (crc : UInt32) : (register crc).degree < (32 : ℕ) := degree_ofWord_lt 32 _

theorem toNat_crcShift (crc : UInt32) :
    (crcShift crc).toNat = (crc.toNat / 2) ^^^ if crc.toNat.testBit 0 then 0xEDB88320 else 0 := by
  have hbit : crc.toNat.testBit 0 = decide (crc.toNat % 2 = 1) := Nat.testBit_zero _
  rw [crcShift_eq, UInt32.toNat_xor, toNat_half, hbit]
  split_ifs <;> simp_all

theorem mk_register_crcShift (crc : UInt32) :
    AdjoinRoot.mk crc32Generator (register (crcShift crc)) = AdjoinRoot.mk crc32Generator (X * register crc) := by
  rw [crc32Generator_eq, register, toNat_crcShift]
  exact mk_ofWord_shift (by decide) crc.toNat_lt

theorem mk_register_iterate (n : ℕ) (crc : UInt32) :
    AdjoinRoot.mk crc32Generator (register (crcShift^[n] crc)) =
      AdjoinRoot.mk crc32Generator (X ^ n * register crc) := by
  induction n generalizing crc with
  | zero => simp
  | succ n ih =>
    rw [Function.iterate_succ_apply, ih, map_mul, mk_register_crcShift, ← map_mul, pow_succ, mul_assoc]

theorem register_xor_byte (crc : UInt32) (byte : UInt8) :
    register (crc ^^^ byte.toUInt32) = register crc + ofBits (bitsOf 8 byte.toNat) * X ^ 24 := by
  have hbyte : ofWord 32 byte.toNat = ofBits (bitsOf 8 byte.toNat) * X ^ 24 := ofWord_of_lt byte.toNat_lt 24
  rw [register, UInt32.toNat_xor, ofWord_xor, UInt8.toNat_toUInt32, hbyte]
  rfl

theorem mk_register_crcByte (crc : UInt32) (byte : UInt8) :
    AdjoinRoot.mk crc32Generator (register (crcByte crc byte)) =
      AdjoinRoot.mk crc32Generator (ofBits (bitsOf 8 byte.toNat) * X ^ 32 + register crc * X ^ 8) := by
  have hring (b r : (ZMod 2)[X]) : X ^ 8 * (r + b * X ^ 24) = b * X ^ 32 + r * X ^ 8 := by ring
  rw [crcByte, mk_register_iterate, register_xor_byte, hring]

theorem length_messageBits (bytes : List UInt8) : (messageBits bytes).length = 8 * bytes.length := by
  induction bytes with
  | nil => rfl
  | cons byte bytes ih =>
    rw [messageBits, List.flatMap_cons, List.length_append, ← messageBits, ih, length_bitsOf, List.length_cons]
    omega

theorem register_crcUpdate (crc : UInt32) (bytes : List UInt8) :
    register (crcUpdate crc bytes) =
      (ofBits (messageBits bytes) * X ^ 32 + register crc * X ^ (messageBits bytes).length) %ₘ crc32Generator := by
  refine isGenerator_crc32Generator.eq_modByMonic (degree_register_lt _) ?_
  induction bytes generalizing crc with
  | nil => simp [crcUpdate, messageBits, ofBits]
  | cons byte bytes ih =>
    have hbits : messageBits (byte :: bytes) = bitsOf 8 byte.toNat ++ messageBits bytes := rfl
    have hring (b m r : (ZMod 2)[X]) (n : ℕ) :
        m * X ^ 32 + (b * X ^ 32 + r * X ^ 8) * X ^ n = (b * X ^ n + m) * X ^ 32 + r * X ^ (8 + n) := by ring
    rw [show crcUpdate crc (byte :: bytes) = crcUpdate (crcByte crc byte) bytes from rfl, ih, map_add,
      map_mul _ (register _), mk_register_crcByte, ← map_mul, ← map_add, hring, hbits, ofBits_append,
      List.length_append, length_bitsOf]

theorem crc32_eq_ieeeCrc32 (bytes : List UInt8) : crc32 bytes = ieeeCrc32 bytes := by
  have hones : register 0xFFFFFFFF = ofBits (List.replicate 32 true) := by
    rw [register, ofWord, show bitsOf 32 (0xFFFFFFFF : UInt32).toNat = List.replicate 32 true by decide]
  have hcheck : register (crc32 bytes) = check crc32Generator 32 (messageBits bytes) := by
    rw [crc32, register, UInt32.toNat_xor, ofWord_xor, ← register, ← register, register_crcUpdate, hones, check]
  rw [ieeeCrc32, ← hcheck, register, word_ofWord (UInt32.toNat_lt _), UInt32.ofNat_toNat]

/-- The checksum of a record is the CRC-32 of the header without a checksum and the payload. -/
theorem computeRecordChecksum_eq_ieeeCrc32 (header : WalRecordHeader) (payload : List UInt8) :
    computeRecordChecksum header payload = ieeeCrc32 (serializeHeader { header with checksum := 0 } ++ payload) ∧
      computeRecordChecksum header payload = crc32 (serializeHeader { header with checksum := 0 } ++ payload) := by
  have hcrc := Record.computeRecordChecksum_eq ⟨header, payload⟩
  exact ⟨hcrc.trans (crc32_eq_ieeeCrc32 _), hcrc⟩

theorem messageBits_injective {as bs : List UInt8} (hlen : as.length = bs.length)
    (h : messageBits as = messageBits bs) : as = bs := by
  induction as generalizing bs with
  | nil => exact (List.length_eq_zero_iff.mp hlen.symm).symm
  | cons a as ih =>
    cases bs with
    | nil => contradiction
    | cons b bs =>
      have hsplit : bitsOf 8 a.toNat ++ messageBits as = bitsOf 8 b.toNat ++ messageBits bs := h
      obtain ⟨hbyte, hrest⟩ := List.append_inj hsplit (by rw [length_bitsOf, length_bitsOf])
      rw [UInt8.toNat_inj.mp (bitsOf_injective a.toNat_lt b.toNat_lt hbyte), ih (Nat.succ_inj.mp hlen) hrest]

theorem messageBits_append (as bs : List UInt8) : messageBits (as ++ bs) = messageBits as ++ messageBits bs :=
  List.flatMap_append

theorem crc32_ne_of_burst {s s' : List UInt8} (hlen : s.length = s'.length) (hne : s ≠ s') {i : ℕ}
    (hout : ∀ j, j < i ∨ i + 4 ≤ j → s[j]? = s'[j]?) : crc32 s ≠ crc32 s' := by
  obtain ⟨pre, mid, mid', post, rfl, rfl, hmid, hle⟩ := exists_window hlen hout
  intro h
  rw [crc32, crc32, UInt32.xor_left_inj] at h
  have hbits : (messageBits mid).length = (messageBits mid').length := by
    rw [length_messageBits, length_messageBits, hmid]
  have hwidth : (messageBits mid).length ≤ 32 := by
    rw [length_messageBits]
    omega
  have hregister := congrArg register h
  rw [register_crcUpdate, register_crcUpdate, length_messageBits, length_messageBits, hlen] at hregister
  simp only [messageBits_append] at hregister
  have hsame := isGenerator_crc32Generator.burst isCoprime_crc32Generator hbits hwidth hregister
  exact hne (by rw [messageBits_injective hmid hsame])

/-- A record damaged within four consecutive bytes, its stored checksum apart, has another
checksum, so the one it carries is rejected. -/
theorem computeRecordChecksum_ne_of_burst {header header' : WalRecordHeader} {payload payload' : List UInt8}
    (hlen : payload.length = payload'.length)
    (hne : serializeHeader { header with checksum := 0 } ++ payload ≠
      serializeHeader { header' with checksum := 0 } ++ payload')
    (hwindow : ∃ i, ∀ j, j < i ∨ i + 4 ≤ j → (serializeHeader { header with checksum := 0 } ++ payload)[j]? =
      (serializeHeader { header' with checksum := 0 } ++ payload')[j]?) :
    computeRecordChecksum header payload ≠ computeRecordChecksum header' payload' ∧
      (validateRecordChecksum header payload = true → header'.checksum = header.checksum →
        validateRecordChecksum header' payload' = false) := by
  obtain ⟨i, hout⟩ := hwindow
  have hsum := Record.computeRecordChecksum_eq ⟨header, payload⟩
  have hsum' := Record.computeRecordChecksum_eq ⟨header', payload'⟩
  have hdiff : computeRecordChecksum header payload ≠ computeRecordChecksum header' payload' := by
    rw [hsum, hsum']
    refine crc32_ne_of_burst ?_ hne hout
    simp only [Record.covered, List.length_append, length_serializeHeader, hlen]
  refine ⟨hdiff, fun hvalid hstored => ?_⟩
  rw [validateRecordChecksum, beq_iff_eq] at hvalid
  rw [validateRecordChecksum, beq_eq_false_iff_ne, hstored, hvalid]
  exact hdiff

theorem validateRecordChecksum_seal (header : WalRecordHeader) (payload : List UInt8) :
    validateRecordChecksum { header with checksum := computeRecordChecksum header payload } payload = true :=
  beq_self_eq_true (computeRecordChecksum header payload)

theorem computeRecordChecksum_ne_of_burst_payload :
    let header : WalRecordHeader := { payloadSize := 1, checksum := computeRecordChecksum { payloadSize := 1 } [7] }
    validateRecordChecksum header [7] = true ∧ validateRecordChecksum header [8] = false := by
  have hburst (header : WalRecordHeader) (hvalid : validateRecordChecksum header [7] = true) :
      validateRecordChecksum header [8] = false := by
    have hlen : [(7 : UInt8)].length = [(8 : UInt8)].length := rfl
    refine (computeRecordChecksum_ne_of_burst hlen (by simp) ⟨40, ?_⟩).2 hvalid rfl
    rintro j (hj | hj)
    · rw [List.getElem?_append_left (by rwa [length_serializeHeader]),
        List.getElem?_append_left (by rwa [length_serializeHeader])]
    · rw [List.getElem?_eq_none (by simp [length_serializeHeader]; omega),
        List.getElem?_eq_none (by simp [length_serializeHeader]; omega)]
  have hvalid := validateRecordChecksum_seal { payloadSize := 1 } [7]
  exact ⟨hvalid, hburst _ hvalid⟩

end AetherStream.Wal
