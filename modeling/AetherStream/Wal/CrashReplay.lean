import AetherStream.Wal.RoundTrip

/-! Replay of files that failed flushes and torn appends leave behind. Both write past the
committed records without committing anything, and the file is preallocated, so the reader
meets those bytes as if they were a record. -/

namespace AetherStream.Wal
open Basis Bytes

namespace WalWriter

/-- The bytes behind the record that was copied last, whether or not it was committed. -/
def leftover (w : WalWriter) (behind : List UInt8) : List AppendCall → List UInt8
  | [] => behind
  | c :: cs =>
    leftover (w.append c.message c.clock c.msyncOk).2
      (if (w.checkAppend c.message).isOk then w.rest.drop (40 + c.message.payload.length) else behind) cs

def Trails (w : WalWriter) (behind : List UInt8) : Prop :=
  w.rest = behind ∨ ∃ r : Record, r.Sealed ∧ w.rest = r.encode ++ behind

theorem Trails.append {w : WalWriter} {records : List Record} (h : w.Holds records) {behind : List UInt8}
    (ht : w.Trails behind) (c : AppendCall) :
    (w.append c.message c.clock c.msyncOk).2.Trails
      (if (w.checkAppend c.message).isOk then w.rest.drop (40 + c.message.payload.length) else behind) := by
  rw [append_eq h]
  by_cases hm : (w.checkAppend c.message).isOk = true
  · rw [if_neg (by simp [hm]), if_pos hm]
    split_ifs
    · have hsealed := isSealed_record (w := w) ((checkAppend_isOk_iff h).mp hm).1 c.clock
      exact Or.inr ⟨_, hsealed, (h.copied hm c.clock).2⟩
    · exact Or.inl (h.committed hm c.clock).2
  · rw [Bool.not_eq_true] at hm
    simpa [hm] using ht

theorem Trails.run {w : WalWriter} {records : List Record} (h : w.Holds records) {behind : List UInt8}
    (ht : w.Trails behind) (calls : List AppendCall) : (w.run calls).2.Trails (w.leftover behind calls) := by
  induction calls generalizing w records behind with
  | nil => exact ht
  | cons c cs ih => exact ih (h.append c) (ht.append h c)

end WalWriter

/-- The log of a run replays exactly if what the last copied record left behind it does: the
stale bytes of a longer abandoned record are read as the next record. -/
theorem replays_ok_iff_leftover (path : String) (size : UInt64) (flush : Bool) (createCalls : CreateCalls)
    (calls : List AppendCall) (openCalls : OpenCalls) {w₀ : WalWriter} {r : WalReader}
    (hcreate : WalWriter.create path size flush createCalls = .ok w₀)
    (hopen : WalReader.openPath path (w₀.run calls).2.file.content openCalls = .ok r) :
    (∃ views, r.Replays .ok views) ↔
      ∃ chunks records tail, IsLog (w₀.leftover w₀.rest calls) chunks records tail ∧ CleanTail tail := by
  obtain ⟨hholds₀, -, -⟩ := WalWriter.holds_create hcreate
  have hholds := hholds₀.run calls
  have hready := (WalReader.ready_of_openPath hopen).1
  have hsplit := hholds.splits_rest hopen
  rcases WalWriter.Trails.run hholds₀ (Or.inl rfl) calls with hrest | ⟨record, hsealed, hrest⟩
  · rw [hrest] at hsplit
    exact WalReader.replays_ok_iff hready hsplit
  · rw [hrest] at hsplit
    exact WalReader.replays_ok_iff hready (hsplit.append (hsealed.splits_encode _))

def failedByte : AppendCall := ⟨oneByteMessage 1, 5, false⟩

theorem replays_ok_iff_leftover_abandoned :
    ∃ w₀ r, WalWriter.create "aether.wal" 80 true ⟨some 3, true, some 4096⟩ = .ok w₀ ∧
      WalReader.openPath "aether.wal" (w₀.run [failedByte]).2.file.content ⟨some 4, true, some 8192⟩ = .ok r ∧
      ∃ views, r.Replays .ok views := by
  refine ⟨_, _, rfl, rfl, ?_⟩
  exact (replays_ok_iff_leftover "aether.wal" 80 true ⟨some 3, true, some 4096⟩ [failedByte]
    ⟨some 4, true, some 8192⟩ rfl rfl).mpr ⟨[], [], _, ⟨rfl, .nil⟩, Or.inr (Or.inl (by decide +kernel))⟩

/-- A one-byte record fails its flush and an empty one is committed over it: the byte that
sticks out is taken for the start of a record. -/
theorem not_replays_ok_stale_byte :
    ∃ w₀ r, WalWriter.create "aether.wal" 80 true ⟨some 3, true, some 4096⟩ = .ok w₀ ∧
      WalReader.openPath "aether.wal" (w₀.run [failedByte, ⟨⟨{}, [], by decide⟩, 6, true⟩]).2.file.content
        ⟨some 4, true, some 8192⟩ = .ok r ∧
      (∃ views, r.Replays ⟨.corruptedRecord, "invalid wal magic"⟩ views) ∧ ¬ ∃ views, r.Replays .ok views := by
  refine ⟨_, _, rfl, rfl, ?_⟩
  exact WalReader.exists_replays 2 (by decide +kernel) (by decide)

/-- The file after a crash that let only the first `k` bytes of the next record through. -/
def WalWriter.torn (w : WalWriter) (message : MessageView) (clock : UInt64) (k : Nat) : FileContent :=
  w.file.content.overwrite w.currentOffset.toNat ((w.record message clock).encode.take k)

theorem readLe_mono {bytes bytes' : List UInt8} {n off : Nat}
    (h : ∀ i < off + n, (bytes.getD i 0).toNat ≤ (bytes'.getD i 0).toNat) :
    readLe n bytes off ≤ readLe n bytes' off := by
  unfold readLe
  rw [foldl_or_shift n fun i => bytes.getD (off + i) 0, foldl_or_shift n fun i => bytes'.getD (off + i) 0]
  refine ofLe_map_le fun i hi => h _ ?_
  have := List.mem_range.mp hi
  omega

section Torn
variable {r : Record} (hr : r.Sealed) {zeros : List UInt8} (hzeros : ∀ b ∈ zeros, b = 0) {k : Nat}
  (hk : k ≤ r.encode.length)
include hzeros

theorem getD_torn_le (i : Nat) :
    ((r.encode.take k ++ zeros).getD i 0).toNat ≤ (r.encode.getD i 0).toNat := by
  rw [List.getD_eq_getElem?_getD, List.getElem?_append]
  split_ifs with hi
  · rw [List.length_take] at hi
    rw [List.getElem?_take_of_lt (by omega), ← List.getD_eq_getElem?_getD]
  · cases hz : zeros[i - (r.encode.take k).length]? with
    | none => exact Nat.zero_le _
    | some b =>
      rw [hzeros b (List.mem_of_getElem? hz)]
      exact Nat.zero_le _

include hr in
theorem payloadSize_torn_le {h : WalRecordHeader} (hd : deserializeHeader (r.encode.take k ++ zeros) = .ok h) :
    h.payloadSize.toNat ≤ r.payload.length := by
  rw [hr.length, payloadSize_of_deserializeHeader hd, payloadSize_of_deserializeHeader hr.isRecordText.decodes]
  exact readLe_mono fun i _ => getD_torn_le hzeros i

include hr in
theorem not_cleanTail_torn (hpos : 0 < k) (hlen : r.encode.length ≤ (r.encode.take k ++ zeros).length) :
    ¬ CleanTail (r.encode.take k ++ zeros) := by
  -- the magic number is there in part, and the file has room for the whole record
  rw [r.length_encode] at hlen
  have hfirst : (r.encode.take k ++ zeros)[0]? = some 0x41 := by
    rw [List.getElem?_append_left (by simp [r.length_encode]; omega), List.getElem?_take_of_lt hpos,
      (hr.getElem?_magic).1]
  intro hclean
  obtain ⟨h, hd, -, hlt⟩ := hclean.exists_header (by omega) fun hzero =>
    absurd (hzero _ (List.mem_of_getElem? hfirst)) (by decide)
  have hle := payloadSize_torn_le hr hzeros hd
  omega

end Torn

theorem bytes_torn {w : WalWriter} {records : List Record} (h : w.Holds records) {message : MessageView}
    (hm : (w.checkAppend message).isOk = true) (clock : UInt64) {k : Nat} (hk : k ≤ 40 + message.payload.length) :
    (w.torn message clock k).bytes =
      records.flatMap Record.encode ++ ((w.record message clock).encode.take k ++ w.rest.drop k) := by
  have hfits := h.fits hm
  have hlen : ((w.record message clock).encode.take k).length = k := by
    rw [List.length_take, Record.length_encode]
    exact Nat.min_eq_left hk
  show overwrite w.file.bytes w.currentOffset.toNat ((w.record message clock).encode.take k) = _
  rw [overwrite_eq (by omega), h.text, hlen, List.append_assoc, WalWriter.rest, List.drop_drop]

theorem take_append_zeros {l zeros : List UInt8} {k : Nat} (hl : ∀ b ∈ l.drop k, b = 0)
    (hzeros : ∀ b ∈ zeros, b = 0) (hk : k ≤ l.length) (hlen : l.length ≤ zeros.length) :
    l.take k ++ zeros.drop k = l ++ zeros.drop l.length := by
  have hsplit : zeros.drop k = l.drop k ++ zeros.drop l.length := by
    have hmid : (zeros.drop k).take (l.length - k) = l.drop k := by
      rw [List.eq_replicate_of_mem hl,
        List.eq_replicate_of_mem fun b hb => hzeros b (List.mem_of_mem_drop (List.mem_of_mem_take hb))]
      congr 1
      simp
      omega
    rw [← hmid, ← Nat.add_sub_of_le hk, ← List.drop_drop, Nat.add_sub_cancel_left, List.take_append_drop]
  rw [hsplit, ← List.append_assoc, List.take_append_drop]

/-- Replay of a file torn after `k` bytes of the next record is as promised: `ok` after the
committed records, with the torn one only if all that is missing of it is zeros. -/
def TornPromise (r : WalReader) (records : List Record) (record : Record) (k : Nat) : Prop :=
  ∃ views, r.Replays .ok views ∧
    (views = viewsFrom 0 records ∨ (∀ b ∈ record.encode.drop k, b = 0) ∧ views = viewsFrom 0 (records ++ [record]))

/-- The promise is kept only when nothing of the record was written or nothing but zeros is
missing: any other cut is reported as corruption or read as a record nobody wrote. -/
theorem tornPromise_iff (path : String) (size : UInt64) (flush : Bool) (createCalls : CreateCalls)
    (calls : List AppendCall) (message : MessageView) (clock : UInt64) (k : Nat) (openCalls : OpenCalls)
    {w₀ w : WalWriter} {statuses : List Status} {r : WalReader}
    (hcreate : WalWriter.create path size flush createCalls = .ok w₀) (hrun : w₀.run calls = (statuses, w))
    (hzero : ∀ b ∈ w.rest, b = 0) (hm : (w.checkAppend message).isOk = true)
    (hk : k ≤ 40 + message.payload.length)
    (hopen : WalReader.openPath path (w.torn message clock k) openCalls = .ok r) :
    TornPromise r ((accepted calls statuses).mapIdx fun i c => c.record i) (w.record message clock) k ↔
      k = 0 ∨ ∀ b ∈ (w.record message clock).encode.drop k, b = 0 := by
  have hholds := WalWriter.holds_of_run hcreate hrun
  generalize (accepted calls statuses).mapIdx _ = records at hholds ⊢
  have hencode : (w.record message clock).encode.length = 40 + message.payload.length := Record.length_encode _
  obtain ⟨hsize, hfits⟩ := (WalWriter.checkAppend_isOk_iff hholds).mp hm
  have hsealed := WalWriter.isSealed_record (w := w) hsize clock
  obtain ⟨hready, hoff, hrest⟩ := WalReader.ready_of_openPath hopen
  have hsplit : framing.Splits r.rest records ((w.record message clock).encode.take k ++ w.rest.drop k) := by
    rw [hrest, bytes_torn hholds hm clock hk]
    exact splits_encode hholds.isSealed _
  constructor
  · rintro ⟨views, hreplays, hviews⟩
    by_contra hcut
    obtain ⟨hpos, hmissing⟩ := not_or.mp hcut
    have hviews := hviews.resolve_right fun h => hmissing h.1
    obtain ⟨more, tail, hmore, hclean, heq⟩ := hreplays.exists_cleanTail hready hsplit
    -- as many views as committed records: the torn bytes were taken for a clean tail
    have hnil : more = [] := by
      have hlen := congrArg List.length (hviews.symm.trans heq)
      rw [length_viewsFrom, length_viewsFrom, List.length_append] at hlen
      exact List.length_eq_zero_iff.mp (by omega)
    subst hnil
    cases hmore
    refine not_cleanTail_torn hsealed (fun b hb => hzero b (List.mem_of_mem_drop hb))
      (Nat.pos_of_ne_zero hpos) ?_ hclean
    rw [List.length_append, List.length_take, List.length_drop]
    omega
  · rintro (rfl | hmissing)
    · have hclean : CleanTail (List.take 0 (w.record message clock).encode ++ List.drop 0 w.rest) :=
        Or.inr (Or.inl (by simpa using hzero))
      exact ⟨_, WalReader.replays_of_cleanTail hready hsplit hclean, Or.inl (by rw [hoff])⟩
    · rw [take_append_zeros hmissing hzero (by omega) (by omega)] at hsplit
      have hclean : CleanTail (w.rest.drop (w.record message clock).encode.length) :=
        Or.inr (Or.inl fun b hb => hzero b (List.mem_of_mem_drop hb))
      exact ⟨_, WalReader.replays_of_cleanTail hready (hsplit.append (hsealed.splits_encode _)) hclean,
        Or.inr ⟨hmissing, by rw [hoff]⟩⟩

def endsInZeros : MessageView := ⟨{ payloadSize := 3 }, [7, 0, 0], by decide⟩

set_option maxRecDepth 2000 in
theorem tornPromise_endsInZeros :
    ∃ w₀ w r, WalWriter.create "aether.wal" 96 true ⟨some 3, true, some 4096⟩ = .ok w₀ ∧
      w₀.run [⟨oneByteMessage 1, 5, true⟩] = ([.ok], w) ∧
      WalReader.openPath "aether.wal" (w.torn endsInZeros 6 41) ⟨some 4, true, some 8192⟩ = .ok r ∧
      TornPromise r [AppendCall.record ⟨oneByteMessage 1, 5, true⟩ 0] (w.record endsInZeros 6) 41 := by
  refine ⟨_, _, _, rfl, rfl, rfl, ?_⟩
  exact (tornPromise_iff "aether.wal" 96 true ⟨some 3, true, some 4096⟩ [⟨oneByteMessage 1, 5, true⟩] endsInZeros 6 41
    ⟨some 4, true, some 8192⟩ rfl rfl (by decide +kernel) (by decide +kernel) (by decide) rfl).mpr
    (Or.inr (by decide +kernel))

/-- A cut behind the magic number: version zero is corruption, not a torn tail. -/
theorem not_tornPromise_magic_written :
    ∃ w₀ w r, WalWriter.create "aether.wal" 64 true ⟨some 3, true, some 4096⟩ = .ok w₀ ∧ w₀.run [] = ([], w) ∧
      (∀ b ∈ w.rest, b = 0) ∧ (w.checkAppend failedByte.message).isOk = true ∧
      WalReader.openPath "aether.wal" (w.torn failedByte.message 5 4) ⟨some 4, true, some 8192⟩ = .ok r ∧
      (∃ views, r.Replays ⟨.corruptedRecord, "unsupported wal version"⟩ views) ∧
      ¬ TornPromise r [] (w.record failedByte.message 5) 4 := by
  refine ⟨_, _, _, rfl, rfl, by decide +kernel, by decide +kernel, rfl, ?_⟩
  refine And.imp_right ?_ (WalReader.exists_replays 1 (by decide +kernel) (by decide))
  exact fun hnot ⟨views, hok, _⟩ => hnot ⟨views, hok⟩

end AetherStream.Wal
