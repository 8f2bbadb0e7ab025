import AetherStream.Wal.Damage

/-! Files that were cut short: whichever byte the cut falls on, replay recovers the records
that are still whole. -/

namespace AetherStream.Wal
open Basis

def truncated (content : FileContent) (k : Nat) : FileContent where
  bytes := content.bytes.take k
  length_lt := (List.length_take_le' k content.bytes).trans_lt content.length_lt

theorem startOf_cons_succ (r : Record) (records : List Record) (i : Nat) :
    startOf (r :: records) (i + 1) = r.encode.length + startOf records i := by
  rw [startOf, List.take_succ_cons, List.flatMap_cons, List.length_append, startOf]

theorem cleanTail_take {r : Record} (hr : r.Sealed) {k : Nat} (hk : k < r.encode.length) :
    CleanTail (r.encode.take k) := by
  have hlen : (r.encode.take k).length = k := List.length_take_of_le hk.le
  by_cases hshort : k < 40
  · exact Or.inr (Or.inr (Or.inl (by omega)))
  have hd : deserializeHeader (r.encode.take k) = .ok r.header := by
    rw [← deserializeHeader_take (by omega), List.take_take, Nat.min_eq_left (by omega),
      deserializeHeader_take (by omega), hr.isRecordText.decodes]
  have hlong : (r.encode.take k).length < 40 + r.header.payloadSize.toNat := by
    rw [hlen, ← hr.isRecordText.length]
    exact hk
  exact Or.inr (Or.inr (Or.inr ⟨by omega, r.header, hd, hr.shape, hlong⟩))

theorem splits_take {records : List Record} (hsealed : ∀ r ∈ records, r.Sealed) {zeros : List UInt8}
    (hzeros : ∀ b ∈ zeros, b = 0) (k : Nat) :
    ∃ m tail, framing.Splits ((records.flatMap Record.encode ++ zeros).take k) (records.take m) tail ∧
      CleanTail tail ∧ m ≤ records.length ∧ ∀ i < records.length, i < m ↔ startOf records (i + 1) ≤ k := by
  induction records generalizing k with
  | nil => exact ⟨0, _, .done _, Or.inr (Or.inl fun b hb => hzeros b (List.mem_of_mem_take hb)), le_rfl, by simp⟩
  | cons r records ih =>
    obtain ⟨hr, hrecords⟩ := List.forall_mem_cons.mp hsealed
    rw [List.flatMap_cons, List.append_assoc]
    by_cases hk : k < r.encode.length
    · -- the cut falls into the first record, and all the others stand behind it
      refine ⟨0, _, .done _, ?_, Nat.zero_le _, fun i _ => ?_⟩
      · rw [List.take_append_of_le_length hk.le]
        exact cleanTail_take hr hk
      · rw [startOf_cons_succ]
        omega
    · obtain ⟨m, tail, hsplit, hclean, hle, hall⟩ := ih hrecords (k - r.encode.length)
      refine ⟨m + 1, tail, ?_, hclean, Nat.succ_le_succ hle, fun i hi => ?_⟩
      · rw [List.take_append, List.take_of_length_le (Nat.not_lt.mp hk), List.take_succ_cons]
        exact hr.isRecordText.splits_append hsplit
      · rw [startOf_cons_succ]
        cases i with
        | zero => simp [startOf]; omega
        | succ i =>
          have := hall i (Nat.lt_of_succ_lt_succ hi)
          omega

/-- Replay of the first `k` bytes of a log returns `ok` and visits the records that end
within them. -/
theorem replays_truncated (path : String) (size : UInt64) (flush : Bool) (createCalls : CreateCalls)
    (calls : List AppendCall) (openCalls : OpenCalls) (k : Nat) {w₀ w : WalWriter} {statuses : List Status}
    {records : List Record} {r : WalReader}
    (hcreate : WalWriter.create path size flush createCalls = .ok w₀) (hrun : w₀.run calls = (statuses, w))
    (hflush : ∀ status ∈ statuses, status.code ≠ .ioError)
    (hrecords : records = (accepted calls statuses).mapIdx fun i c => c.record i)
    (hopen : WalReader.openPath path (truncated w.file.content k) openCalls = .ok r) :
    ∃ m ≤ records.length, r.Replays .ok (viewsFrom 0 (records.take m)) ∧
      ∀ i < records.length, i < m ↔ startOf records (i + 1) ≤ k := by
  have hholds : w.Holds records := hrecords ▸ WalWriter.holds_of_run hcreate hrun
  have hzeros := WalWriter.rest_of_run hcreate hrun hflush
  obtain ⟨m, tail, hsplit, hclean, hle, hall⟩ := splits_take hholds.isSealed hzeros k
  obtain ⟨hready, hoff, hrest⟩ := WalReader.ready_of_openPath hopen
  have hbytes : r.rest = (records.flatMap Record.encode ++ w.rest).take k := by
    rw [hrest, ← hholds.bytes_eq]
    rfl
  have hreplays := WalReader.replays_of_cleanTail hready (hbytes ▸ hsplit) hclean
  rw [hoff] at hreplays
  exact ⟨m, hle, hreplays, hall⟩

set_option maxRecDepth 2000 in
theorem replays_truncated_last_byte :
    ∃ w₀ w r, WalWriter.create "aether.wal" 96 true ⟨some 3, true, some 4096⟩ = .ok w₀ ∧
      w₀.run twoBytes = ([.ok, .ok], w) ∧
      WalReader.openPath "aether.wal" (truncated w.file.content 81) ⟨some 4, true, some 8192⟩ = .ok r ∧
      ∃ view, r.Replays .ok [view] ∧ view.payload = [1] := by
  refine ⟨_, _, _, rfl, rfl, rfl, ?_⟩
  obtain ⟨m, hle, hreplays, hall⟩ := replays_truncated "aether.wal" 96 true ⟨some 3, true, some 4096⟩ twoBytes
    ⟨some 4, true, some 8192⟩ 81 rfl rfl (by decide) rfl rfl
  have hfirst : 0 < m := (hall 0 (by decide)).mpr (by decide +kernel)
  have hsecond : ¬ 1 < m := mt (hall 1 (by decide)).mp (by decide +kernel)
  obtain rfl : m = 1 := by omega
  exact ⟨_, hreplays, rfl⟩

end AetherStream.Wal
