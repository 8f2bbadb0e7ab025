import Mathlib.Data.List.Forall2
import AetherStream.Basis.Framing
import AetherStream.Wal.WalReader

/-! The grammar of a log: well-formed records one after the other, then a clean tail. The
reader is shown to follow it record by record. -/

namespace AetherStream.Wal
open Basis Bytes

structure Record where
  header : WalRecordHeader
  payload : List UInt8
  deriving DecidableEq, Repr

def WellShaped (h : WalRecordHeader) : Prop :=
  h.magic = walRecordMagic ∧ h.version = walFormatVersion ∧ h.headerSize = walRecordHeaderSize

instance (h : WalRecordHeader) : Decidable (WellShaped h) := by unfold WellShaped; infer_instance

structure IsRecordText (text : List UInt8) (r : Record) : Prop where
  decodes : deserializeHeader text = .ok r.header
  shape : WellShaped r.header
  payload : text.drop 40 = r.payload
  length : text.length = 40 + r.header.payloadSize.toNat
  checksum : r.header.checksum = computeRecordChecksum r.header r.payload

/-- `bytes` is the concatenation of the record texts `chunks`, followed by `tail`. -/
structure IsLog (bytes : List UInt8) (chunks : List (List UInt8)) (records : List Record)
    (tail : List UInt8) : Prop where
  text : bytes = chunks.flatten ++ tail
  records : List.Forall₂ IsRecordText chunks records

/-- A tail at which a log may end: nothing, zeros, less than a header, or a valid header
that announces more payload than there is. -/
def CleanTail (tail : List UInt8) : Prop :=
  tail = [] ∨ (∀ b ∈ tail, b = 0) ∨ tail.length < 40 ∨
    (40 ≤ tail.length ∧ ∃ h, deserializeHeader tail = .ok h ∧ WellShaped h ∧
      tail.length < 40 + h.payloadSize.toNat)

def recordAt (bytes : List UInt8) : Option (Record × Nat) :=
  match deserializeHeader bytes with
  | .error _ => none
  | .ok h =>
    let payload := (bytes.drop 40).take h.payloadSize.toNat
    if WellShaped h ∧ 40 + h.payloadSize.toNat ≤ bytes.length ∧
        h.checksum = computeRecordChecksum h payload then
      some (⟨h, payload⟩, 40 + h.payloadSize.toNat)
    else none

theorem recordAt_eq_some {bytes : List UInt8} {r : Record} {n : Nat} :
    recordAt bytes = some (r, n) ↔
      deserializeHeader bytes = .ok r.header ∧ WellShaped r.header ∧ n = 40 + r.header.payloadSize.toNat ∧
        n ≤ bytes.length ∧ r.payload = (bytes.drop 40).take r.header.payloadSize.toNat ∧
        r.header.checksum = computeRecordChecksum r.header r.payload := by
  unfold recordAt
  split
  case h_1 heq => simp [heq]
  case h_2 h heq =>
    rw [heq]
    obtain ⟨rh, rp⟩ := r
    simp only [Option.ite_none_right_eq_some, Option.some.injEq, Prod.mk.injEq, Record.mk.injEq,
      Except.ok.injEq]
    constructor
    · rintro ⟨⟨hs, hle, hc⟩, ⟨rfl, rfl⟩, rfl⟩
      exact ⟨rfl, hs, rfl, hle, rfl, hc⟩
    · rintro ⟨rfl, hs, rfl, hle, rfl, hc⟩
      exact ⟨⟨hs, hle, hc⟩, ⟨rfl, rfl⟩, rfl⟩

def framing : Framing UInt8 Record where
  frame := recordAt
  pos h := by have := (recordAt_eq_some.mp h).2.2.1; omega
  le_length h := (recordAt_eq_some.mp h).2.2.2.1

theorem length_le_of_deserializeHeader {bytes : List UInt8} {h : WalRecordHeader}
    (hd : deserializeHeader bytes = .ok h) : 40 ≤ bytes.length := by
  by_contra hlt
  have : bytes.length < walRecordHeaderSize.toNat := by simpa [walRecordHeaderSize] using hlt
  simp [deserializeHeader, this, Expected.ofStatus] at hd

theorem magic_of_deserializeHeader {bytes : List UInt8} {h : WalRecordHeader}
    (hd : deserializeHeader bytes = .ok h) : h.magic = readU32Le bytes 0 := by
  have hlen := length_le_of_deserializeHeader hd
  rw [deserializeHeader, if_neg (by simpa [walRecordHeaderSize] using hlen)] at hd
  rw [← Except.ok.inj hd]

theorem payloadSize_of_deserializeHeader {bytes : List UInt8} {h : WalRecordHeader}
    (hd : deserializeHeader bytes = .ok h) : h.payloadSize.toNat = readLe 4 bytes 8 := by
  have hlen := length_le_of_deserializeHeader hd
  rw [deserializeHeader, if_neg (by simpa [walRecordHeaderSize] using hlen)] at hd
  rw [← Except.ok.inj hd, toNat_readU32Le]

theorem deserializeHeader_append {text : List UInt8} (h : 40 ≤ text.length) (rest : List UInt8) :
    deserializeHeader (text ++ rest) = deserializeHeader text := by
  rw [← deserializeHeader_take (by simp; omega), List.take_append_of_le_length h, deserializeHeader_take h]

theorem IsRecordText.recordAt_append {text : List UInt8} {r : Record} (h : IsRecordText text r)
    (rest : List UInt8) : recordAt (text ++ rest) = some (r, text.length) := by
  have hlen := h.length
  refine recordAt_eq_some.mpr ⟨?_, h.shape, hlen, by simp, ?_, h.checksum⟩
  · rw [deserializeHeader_append (by omega), h.decodes]
  · rw [List.drop_append_of_le_length (by omega), List.take_append_of_le_length (by simp; omega), h.payload,
      List.take_of_length_le (by rw [← h.payload]; simp; omega)]

theorem isRecordText_take {bytes : List UInt8} {r : Record} {n : Nat} (h : recordAt bytes = some (r, n)) :
    IsRecordText (bytes.take n) r := by
  obtain ⟨hd, hs, rfl, hle, hp, hc⟩ := recordAt_eq_some.mp h
  refine ⟨?_, hs, ?_, by simpa using hle, hc⟩
  · rw [← hd, ← deserializeHeader_take (by simp; omega), List.take_take, Nat.min_eq_left (by omega),
      deserializeHeader_take (by omega)]
  · rw [List.drop_take, hp, Nat.add_sub_cancel_left]

theorem splits_iff_isLog {bytes tail : List UInt8} {records : List Record} :
    framing.Splits bytes records tail ↔ ∃ chunks, IsLog bytes chunks records tail := by
  rw [Framing.splits_iff_texts (F := framing) IsRecordText.recordAt_append isRecordText_take]
  exact exists_congr fun _ => ⟨fun h => ⟨h.1, h.2⟩, fun h => ⟨h.1, h.2⟩⟩

theorem exists_isLog_longest {bytes tail : List UInt8} {records : List Record}
    (h : framing.Splits bytes records tail) (hstuck : recordAt tail = none) :
    ∃ chunks, IsLog bytes chunks records tail ∧
      ∀ chunks' records' tail', IsLog bytes chunks' records' tail' → records' <+: records := by
  obtain ⟨chunks, hlog⟩ := splits_iff_isLog.mp h
  refine ⟨chunks, hlog, fun chunks' records' tail' hlog' => ?_⟩
  obtain ⟨more, rfl, -⟩ := h.prefix_of_stuck hstuck (splits_iff_isLog.mpr ⟨chunks', hlog'⟩)
  exact List.prefix_append _ _

theorem IsRecordText.splits_append {text bytes tail : List UInt8} {r : Record} {records : List Record}
    (h : IsRecordText text r) (hrest : framing.Splits bytes records tail) :
    framing.Splits (text ++ bytes) (r :: records) tail := by
  refine .more (h.recordAt_append bytes) ?_
  rwa [List.drop_left]

namespace Record

def encode (r : Record) : List UInt8 := serializeHeader r.header ++ r.payload

structure Sealed (r : Record) : Prop where
  shape : WellShaped r.header
  length : r.payload.length = r.header.payloadSize.toNat
  checksum : r.header.checksum = computeRecordChecksum r.header r.payload

theorem length_encode (r : Record) : r.encode.length = 40 + r.payload.length := by
  rw [encode, List.length_append, length_serializeHeader]

theorem Sealed.isRecordText {r : Record} (h : r.Sealed) : IsRecordText r.encode r where
  decodes := deserializeHeader_serializeHeader r.header r.payload
  shape := h.shape
  payload := List.drop_left' (length_serializeHeader r.header)
  length := by rw [length_encode, h.length]
  checksum := h.checksum

theorem Sealed.getElem?_magic {r : Record} (h : r.Sealed) : r.encode[0]? = some 0x41 ∧ r.encode[1]? = some 0x57 := by
  rw [encode, serializeHeader_eq, headerFields, h.shape.1]
  exact ⟨rfl, rfl⟩

end Record

theorem isLog_encode {records : List Record} (h : ∀ r ∈ records, r.Sealed) (tail : List UInt8) :
    IsLog (records.flatMap Record.encode ++ tail) (records.map Record.encode) records tail where
  text := by rw [List.flatMap_def]
  records := by
    rw [List.forall₂_map_left_iff, List.forall₂_same]
    exact fun r hr => (h r hr).isRecordText

theorem splits_encode {records : List Record} (h : ∀ r ∈ records, r.Sealed) (tail : List UInt8) :
    framing.Splits (records.flatMap Record.encode ++ tail) records tail :=
  splits_iff_isLog.mpr ⟨_, isLog_encode h tail⟩

theorem Record.Sealed.splits_encode {r : Record} (h : r.Sealed) (tail : List UInt8) :
    framing.Splits (r.encode ++ tail) [r] tail := by
  have hone := Wal.splits_encode (List.forall_mem_singleton.mpr h) tail
  rwa [List.flatMap_singleton] at hone

theorem readLe_of_isZeroFilled {bytes : List UInt8} (h : ∀ b ∈ bytes, b = 0) (n off : Nat) :
    readLe n bytes off = 0 := by
  have hget (i : Nat) : bytes.getD i 0 = 0 := by
    rw [List.getD_eq_getElem?_getD]
    cases hi : bytes[i]? with
    | none => rfl
    | some b => exact h b (List.mem_of_getElem? hi)
  unfold readLe
  simp only [hget]
  induction List.range n with
  | nil => rfl
  | cons i is ih => simp

theorem not_wellShaped_of_zeros {bytes : List UInt8} {h : WalRecordHeader} (hz : ∀ b ∈ bytes, b = 0)
    (hd : deserializeHeader bytes = .ok h) : ¬ WellShaped h := by
  rintro ⟨hmagic, -, -⟩
  rw [magic_of_deserializeHeader hd, readU32Le, readLe_of_isZeroFilled hz] at hmagic
  exact absurd hmagic (by decide)

theorem CleanTail.exists_header {tail : List UInt8} (h : CleanTail tail) (hlen : 40 ≤ tail.length)
    (hzero : ¬ ∀ b ∈ tail, b = 0) :
    ∃ header, deserializeHeader tail = .ok header ∧ WellShaped header ∧
      tail.length < 40 + header.payloadSize.toNat := by
  rcases h with rfl | hz | hlt | ⟨-, header, hd, hs, hlt⟩
  · simp at hlen
  · exact absurd hz hzero
  · omega
  · exact ⟨header, hd, hs, hlt⟩

theorem recordAt_of_cleanTail {tail : List UInt8} (h : CleanTail tail) : recordAt tail = none := by
  rw [Option.eq_none_iff_forall_not_mem]
  rintro ⟨r, n⟩ hr
  obtain ⟨hd, hs, rfl, hle, -, -⟩ := recordAt_eq_some.mp hr
  have hlen := length_le_of_deserializeHeader hd
  rcases h with rfl | hz | hlt | ⟨-, h, hd', -, hlt⟩
  · simp at hlen
  · exact not_wellShaped_of_zeros hz hd hs
  · omega
  · rw [hd] at hd'
    cases hd'
    omega

theorem chunks_unique {chunks chunks' : List (List UInt8)} {records : List Record} {tail : List UInt8}
    (h : List.Forall₂ IsRecordText chunks records) (h' : List.Forall₂ IsRecordText chunks' records)
    (heq : chunks.flatten ++ tail = chunks'.flatten ++ tail) : chunks = chunks' := by
  induction h generalizing chunks' with
  | nil => cases h'; rfl
  | @cons c r cs rs hc _ ih =>
    cases h' with
    | @cons c' _ cs' _ hc' hcs' =>
      simp only [List.flatten_cons, List.append_assoc] at heq
      obtain ⟨rfl, hrest⟩ := List.append_inj heq (hc.length.trans hc'.length.symm)
      rw [ih hcs' hrest]

end AetherStream.Wal
