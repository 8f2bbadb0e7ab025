import AetherStream.Wal.Replay
import AetherStream.Wal.WalWriter

/-! A reader over a written file returns the accepted appends, in order. -/

namespace AetherStream.Wal
open Basis

theorem toNat_add_recordTotalSize {offset : UInt64} {r : Record} (hr : r.Sealed)
    (hlt : offset.toNat + r.encode.length < 2 ^ 64) :
    (offset + recordTotalSize r.header).toNat = offset.toNat + r.encode.length := by
  rw [r.length_encode, hr.length] at hlt ⊢
  rw [UInt64.toNat_add, hr.shape.toNat_recordTotalSize, Nat.mod_eq_of_lt hlt]

theorem viewsFrom_getElem? {offset : UInt64} {records : List Record} (hsealed : ∀ r ∈ records, r.Sealed)
    (hlt : offset.toNat + (records.flatMap Record.encode).length < 2 ^ 64) {i : Nat} {view : WalRecordView}
    (hview : (viewsFrom offset records)[i]? = some view) :
    ∃ r, records[i]? = some r ∧ view.header = r.header ∧ view.payload = r.payload ∧
      view.offset.toNat = offset.toNat + ((records.take i).flatMap Record.encode).length := by
  induction records generalizing offset i with
  | nil => simp [viewsFrom] at hview
  | cons r records ih =>
    cases i with
    | zero =>
      simp only [viewsFrom, List.getElem?_cons_zero, Option.some.injEq] at hview
      subst hview
      exact ⟨r, rfl, rfl, rfl, by simp⟩
    | succ i =>
      rw [List.flatMap_cons, List.length_append] at hlt
      have hnext := toNat_add_recordTotalSize (hsealed r (by simp)) (by omega : offset.toNat + _ < _)
      simp only [viewsFrom, List.getElem?_cons_succ] at hview
      obtain ⟨r', hget, hheader, hpayload, hoffset⟩ :=
        ih (fun r hr => hsealed r (List.mem_cons_of_mem _ hr)) (by rw [hnext]; omega) hview
      refine ⟨r', by simpa using hget, hheader, hpayload, ?_⟩
      rw [hoffset, hnext, List.take_succ_cons, List.flatMap_cons, List.length_append, Nat.add_assoc]

theorem length_viewsFrom (offset : UInt64) (records : List Record) :
    (viewsFrom offset records).length = records.length := by
  induction records generalizing offset with
  | nil => rfl
  | cons r records ih => simp [viewsFrom, ih]

theorem WalReader.file_foldl_advance (r : WalReader) (records : List Record) :
    (records.foldl advance r).file = r.file := by
  induction records generalizing r with
  | nil => rfl
  | cons record records ih => exact ih _

section Reader
variable {w : WalWriter} {records : List Record} (h : w.Holds records) {path : String} {calls : OpenCalls}
  {r : WalReader} (hopen : WalReader.openPath path w.file.content calls = .ok r)
include h hopen

theorem WalWriter.Holds.splits_rest : framing.Splits r.rest records w.rest := by
  have hsplit := splits_encode h.isSealed w.rest
  rw [← h.bytes_eq] at hsplit
  rwa [(WalReader.ready_of_openPath hopen).2.2]

theorem WalWriter.Holds.currentOffset_reader :
    (records.foldl WalReader.advance r).currentOffset = w.currentOffset := by
  obtain ⟨hready, -, -⟩ := WalReader.ready_of_openPath hopen
  obtain ⟨hfinal, htail⟩ := WalReader.advance_of_splits hready (h.splits_rest hopen)
  have hbytes : r.file.bytes = w.file.bytes := WalReader.bytes_of_openPath hopen
  have hle := hfinal.offset_le
  have hlen := congrArg List.length htail
  have hsum := h.offset_add_rest
  rw [WalReader.rest, List.length_drop] at hlen
  rw [WalReader.file_foldl_advance, hbytes] at hle hlen
  apply UInt64.toNat_inj.mp
  omega

end Reader

theorem length_flatMap_encode (records : List Record) :
    (records.flatMap Record.encode).length = (records.map fun r => 40 + r.payload.length).sum := by
  simp only [List.length_flatMap, Record.length_encode]

theorem map_payload_mapIdx (calls : List AppendCall) :
    (calls.mapIdx fun i c => c.record i).map (fun r => 40 + r.payload.length) =
      calls.map fun c => 40 + c.message.payload.length := by
  apply List.ext_getElem
  · simp
  · intro i _ _
    simp [AppendCall.record]

/-- Whatever was appended, and whichever flushes failed: a fresh reader first returns the
accepted messages, numbered in order and packed from the start of the file. If no flush
failed it then stops cleanly where the writer stands. -/
theorem read_back_accepted (path : String) (size : UInt64) (flush : Bool) (createCalls : CreateCalls)
    (calls : List AppendCall) (openCalls : OpenCalls) {w₀ w : WalWriter} {statuses : List Status} {r : WalReader}
    (hcreate : WalWriter.create path size flush createCalls = .ok w₀) (hrun : w₀.run calls = (statuses, w))
    (hopen : WalReader.openPath path w.file.content openCalls = .ok r) :
    ∃ views final, r.nexts (accepted calls statuses).length = (views.map .ok, final) ∧
      views.length = (accepted calls statuses).length ∧
      (∀ i view c, views[i]? = some view → (accepted calls statuses)[i]? = some c →
        view.header.sequence.toNat = i ∧
        view.header.flags = c.message.header.flags ∧
        view.payload = c.message.payload ∧
        view.header.timestampNs =
          (if c.message.header.timestampNs ≠ 0 then c.message.header.timestampNs else c.clock) ∧
        view.offset.toNat =
          (((accepted calls statuses).take i).map fun c => 40 + c.message.payload.length).sum) ∧
      ((∀ status ∈ statuses, status.code ≠ .ioError) →
        (∃ status, final.next = (.error status, final) ∧ status.code = .empty) ∧
        final.currentOffset = w.currentOffset ∧ r.Replays .ok views) := by
  have hholds := WalWriter.holds_of_run hcreate hrun
  have hzero := WalWriter.rest_of_run hcreate hrun
  generalize accepted calls statuses = messages at hholds ⊢
  have hsplit := hholds.splits_rest hopen
  obtain ⟨hready, hoff, -⟩ := WalReader.ready_of_openPath hopen
  have hnexts := WalReader.nexts_of_splits hready hsplit
  obtain ⟨hfinal, htail⟩ := WalReader.advance_of_splits hready hsplit
  have hlt := w.file.length_bytes_lt
  rw [hholds.bytes_eq, List.length_append] at hlt
  have hcount := hholds.length_lt
  rw [List.length_mapIdx] at hcount
  rw [List.length_mapIdx, hoff] at hnexts
  refine ⟨_, _, hnexts, by rw [length_viewsFrom, List.length_mapIdx], ?_, fun hflush => ?_⟩
  · intro i view c hview hc
    obtain ⟨record, hget, hheader, hpayload, hoffset⟩ :=
      viewsFrom_getElem? hholds.isSealed (by rw [UInt64.toNat_zero]; omega) hview
    rw [List.getElem?_mapIdx, hc] at hget
    cases hget
    have hi := (List.getElem?_eq_some_iff.mp hc).1
    refine ⟨?_, by rw [hheader]; rfl, hpayload, by rw [hheader]; rfl, ?_⟩
    · rw [hheader]
      exact UInt64.toNat_ofNat_of_lt' ((hi.trans hcount).trans (by decide))
    · rw [hoffset, length_flatMap_encode, List.map_take, map_payload_mapIdx, ← List.map_take, UInt64.toNat_zero,
        Nat.zero_add]
  · have hclean : CleanTail w.rest := Or.inr (Or.inl (hzero hflush))
    have hstuck := recordAt_of_cleanTail hclean
    obtain ⟨status, hnext, hcode⟩ := WalReader.next_of_stuck hfinal (htail ▸ hstuck)
    refine ⟨⟨status, hnext, (hcode.resolve_right fun hc => hc.2 (htail ▸ hclean)).1⟩,
      hholds.currentOffset_reader hopen, ?_⟩
    have hreplays := WalReader.replays_of_cleanTail hready hsplit hclean
    rwa [hoff] at hreplays

def oneByteMessage (b : UInt8) : MessageView := ⟨{ payloadSize := 1 }, [b], by simp⟩

def failedThenAccepted : List AppendCall := [⟨oneByteMessage 1, 5, false⟩, ⟨oneByteMessage 2, 6, true⟩]

theorem read_back_accepted_failedThenAccepted :
    ∃ w₀ w r, WalWriter.create "aether.wal" 96 true ⟨some 3, true, some 4096⟩ = .ok w₀ ∧
      w₀.run failedThenAccepted = ([⟨.ioError, "failed to flush mmap file"⟩, .ok], w) ∧
      WalReader.openPath "aether.wal" w.file.content ⟨some 4, true, some 8192⟩ = .ok r ∧
      ∃ view final, r.nexts 1 = ([.ok view], final) ∧ view.payload = [2] := by
  refine ⟨_, _, _, rfl, rfl, rfl, ?_⟩
  obtain ⟨views, final, hnexts, hlen, hviews, -⟩ := read_back_accepted "aether.wal" 96 true
    ⟨some 3, true, some 4096⟩ failedThenAccepted ⟨some 4, true, some 8192⟩ rfl rfl rfl
  obtain ⟨view, rfl⟩ := List.length_eq_one_iff.mp hlen
  exact ⟨view, final, hnexts, (hviews 0 view _ rfl rfl).2.2.1⟩

end AetherStream.Wal
