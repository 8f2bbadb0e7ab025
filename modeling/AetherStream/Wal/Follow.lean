import AetherStream.Wal.Session

/-! A log that is read while it is being written. All mappings of the file are shared, so a
reader sees at each call what the writer has copied so far; the calls do not overlap. -/

namespace AetherStream.Wal
open Basis Bytes

def WalReader.showing (r : WalReader) (content : FileContent) : WalReader :=
  { r with file := r.file.copyIn 0 content.bytes }

def Session.showing (s : Session) (content : FileContent) : Session := ⟨s.reader.showing content, s.delivered⟩

theorem WalReader.foldl_advance_showing (r : WalReader) (content : FileContent) (records : List Record) :
    (records.foldl advance r).showing content = records.foldl advance (r.showing content) := by
  induction records generalizing r with
  | nil => rfl
  | cons record records ih => exact ih (r.advance record)

theorem WalReader.length_bytes_showing (r : WalReader) (content : FileContent) :
    (r.showing content).file.bytes.length = r.file.bytes.length := by
  rw [showing, MmapFile.bytes_copyIn, length_overwrite]

theorem WalReader.bytes_showing {r : WalReader} {content : FileContent}
    (hlen : r.file.bytes.length = content.bytes.length) : (r.showing content).file.bytes = content.bytes := by
  rw [showing, MmapFile.bytes_copyIn, overwrite_eq (by omega), Nat.zero_add, List.drop_eq_nil_of_le (by omega),
    List.append_nil, List.take_zero, List.nil_append]

theorem WalReader.Fresh.showing {r : WalReader} (h : r.Fresh) (content : FileContent) : (r.showing content).Fresh := by
  have hoffset : (r.showing content).currentOffset = 0 := h.currentOffset
  refine ⟨⟨?_, ?_⟩, hoffset, h.recordsRead⟩
  · exact (MmapFile.valid_copyIn ..).trans h.ready.valid
  · rw [hoffset]
    exact Nat.zero_le _

theorem WalReader.Fresh.ahead {r : WalReader} (h : r.Fresh) {w : WalWriter} {records : List Record}
    (hholds : w.Holds records) (hzeros : ∀ b ∈ w.rest, b = 0)
    (hlen : r.file.bytes.length = w.file.bytes.length) : (r.showing w.file.content).Ahead records w.rest := by
  have hfresh := h.showing w.file.content
  refine ⟨hfresh.ready, ?_, recordAt_of_cleanTail (Or.inr (Or.inl hzeros))⟩
  have hrest : (r.showing w.file.content).rest = w.file.bytes := by
    rw [WalReader.rest, hfresh.currentOffset, bytes_showing hlen]
    rfl
  rw [hrest, hholds.bytes_eq]
  exact splits_encode hholds.isSealed w.rest

def Session.Reads (size : Nat) (records : List Record) (k : Nat) (t : Session) : Prop :=
  ∃ r : WalReader, r.Fresh ∧ r.file.bytes.length = size ∧ k ≤ records.length ∧ Session.Through r (records.take k) t

namespace Session
variable {size k : Nat} {records : List Record} {t : Session}

theorem reads_of_openPath {path : String} {content : FileContent} {calls : OpenCalls} {r : WalReader}
    (hopen : WalReader.openPath path content calls = .ok r) (records : List Record) :
    Reads content.bytes.length records 0 ⟨r, []⟩ :=
  ⟨r, WalReader.fresh_of_openPath hopen, by rw [WalReader.bytes_of_openPath hopen], Nat.zero_le _, through_nil r⟩

theorem Reads.append (h : t.Reads size records k) (more : List Record) : t.Reads size (records ++ more) k := by
  obtain ⟨r, hfresh, hsize, hk, hthrough⟩ := h
  refine ⟨r, hfresh, hsize, ?_, ?_⟩
  · rw [List.length_append]
    omega
  · rwa [List.take_append_of_le_length hk]

theorem Through.showing {r : WalReader} {done : List Record} (h : Through r done t) (content : FileContent) :
    Through (r.showing content) done (t.showing content) := by
  refine ⟨?_, h.delivered⟩
  rw [Session.showing, h.reader, WalReader.foldl_advance_showing]

theorem Reads.step {σ : Type*} {w : WalWriter} (h : t.Reads w.file.bytes.length records k) (hholds : w.Holds records)
    (hzeros : ∀ b ∈ w.rest, b = 0) (c : ReaderCall σ) :
    ∃ k', ((t.showing w.file.content).step c).Reads w.file.bytes.length records k' := by
  obtain ⟨r, hfresh, hsize, hk, hthrough⟩ := h
  have hahead := hfresh.ahead hholds hzeros hsize
  obtain ⟨k', hthrough', -⟩ :=
    (hthrough.showing w.file.content).step (hfresh.showing w.file.content) hahead c
  refine ⟨min k' records.length, r.showing w.file.content, hfresh.showing _, ?_, Nat.min_le_right _ _, ?_⟩
  · rw [WalReader.length_bytes_showing, hsize]
  · rwa [← List.take_eq_take_min]

theorem Reads.answers {w : WalWriter} (h : t.Reads w.file.bytes.length records k) (hholds : w.Holds records)
    (hzeros : ∀ b ∈ w.rest, b = 0) :
    t.delivered = (viewsFrom 0 records).take k ∧
      (∀ view, (viewsFrom 0 records)[k]? = some view →
        (t.showing w.file.content).reader.next.1 = .ok view) ∧
      (k = records.length → ∃ status, (t.showing w.file.content).reader.next.1 = .error status ∧
        status.code = .empty) ∧
      ((t.showing w.file.content).reader.replay WalReader.collect []).1 = .ok ∧
      ((t.showing w.file.content).reader.replay WalReader.collect []).2.2 = (viewsFrom 0 records).drop k := by
  obtain ⟨r, hfresh, hsize, hk, hthrough⟩ := h
  have hclean : CleanTail w.rest := Or.inr (Or.inl hzeros)
  have hahead := hfresh.ahead hholds hzeros hsize
  have hoffset : (r.showing w.file.content).currentOffset = 0 := hfresh.currentOffset
  have hshowing := hthrough.showing w.file.content
  rw [← List.take_append_drop k records] at hahead
  have hcursor := hshowing.ahead hahead
  -- the views split where the session stands
  have hviews := WalReader.viewsFrom_append (r.showing w.file.content) (records.take k) (records.drop k)
  rw [List.take_append_drop, hoffset, ← hshowing.reader] at hviews
  have hlen : (viewsFrom 0 (records.take k)).length = k := by
    rw [length_viewsFrom, List.length_take, Nat.min_eq_left hk]
  refine ⟨?_, fun view hview => ?_, fun hend => ?_, ?_⟩
  · rw [hthrough.delivered_eq, hfresh.currentOffset]
  · rw [hviews, List.getElem?_append_right (by omega), hlen, Nat.sub_self] at hview
    cases hdrop : records.drop k with
    | nil => simp [hdrop, viewsFrom] at hview
    | cons record more =>
      rw [hdrop] at hcursor hview
      rw [hcursor.next_cons.1]
      exact congrArg Except.ok (Option.some.inj hview)
  · rw [hend, List.drop_length] at hcursor
    obtain ⟨status, hnext, ⟨hcode, -⟩ | ⟨-, hdirty⟩⟩ := hcursor.next_nil
    · exact ⟨status, by rw [hnext], hcode⟩
    · exact absurd hclean hdirty
  · have hfinal := (show (t.showing w.file.content).reader.Ahead (records.drop k ++ []) w.rest by
      rwa [List.append_nil]).advance
    have hstatus := (hfinal.endStatus_cases.resolve_right fun hdirty => hdirty.2 hclean).1
    rw [hcursor.replay_eq WalReader.collect [], WalReader.visits_collect, hviews, List.drop_left' hlen]
    exact ⟨hstatus, rfl⟩

end Session

theorem WalWriter.Holds.length_bytes_append {w : WalWriter} {records : List Record} (h : w.Holds records)
    (c : AppendCall) :
    (w.append c.message c.clock c.msyncOk).2.file.bytes.length = w.file.bytes.length := by
  rw [WalWriter.append_eq h]
  by_cases hm : (w.checkAppend c.message).isOk = true
  · have hbytes := congrArg List.length (WalWriter.bytes_copied (h.fits hm) c.clock)
    rw [length_overwrite] at hbytes
    rw [if_neg (by simp [hm])]
    split_ifs <;> exact hbytes
  · rw [if_pos (by simpa using hm)]

/-- `appended` are the calls of `append` that returned `ok`, `statuses` what all of them
returned. -/
structure SharedLog where
  writer : WalWriter
  appended : List AppendCall := []
  statuses : List Status := []
  readers : List Session := []

inductive SharedStep (σ : Type*) where
  | append (call : AppendCall)
  | openReader (calls : OpenCalls)
  | read (i : Nat) (call : ReaderCall σ)

namespace SharedLog
variable {σ : Type*}

def step (s : SharedLog) : SharedStep σ → SharedLog
  | .append c =>
    let (status, writer) := s.writer.append c.message c.clock c.msyncOk
    { s with
      writer := writer
      appended := if status.isOk then s.appended ++ [c] else s.appended
      statuses := s.statuses ++ [status] }
  | .openReader calls =>
    match WalReader.openPath s.writer.file.path s.writer.file.content calls with
    | .error _ => s
    | .ok r => { s with readers := s.readers ++ [⟨r, []⟩] }
  | .read i c => { s with readers := s.readers.modify i fun t => (t.showing s.writer.file.content).step c }

def run (s : SharedLog) (steps : List (SharedStep σ)) : SharedLog := steps.foldl step s

def records (s : SharedLog) : List Record := s.appended.mapIdx fun i c => c.record i

structure Inv (s : SharedLog) : Prop where
  holds : s.writer.Holds s.records
  zeros : ∀ b ∈ s.writer.rest, b = 0
  readers : ∀ t ∈ s.readers, ∃ k, t.Reads s.writer.file.bytes.length s.records k

theorem Inv.append {s : SharedLog} (h : s.Inv) (c : AppendCall)
    (hflush : (s.writer.append c.message c.clock c.msyncOk).1.code ≠ .ioError) :
    (s.step (.append c : SharedStep σ)).Inv := by
  have hholds := h.holds.append c
  have hzeros := WalWriter.rest_append h.holds c h.zeros hflush
  have hlen := h.holds.length_bytes_append c
  simp only [step]
  generalize s.writer.append c.message c.clock c.msyncOk = result at hholds hzeros hlen hflush
  obtain ⟨status, writer⟩ := result
  have hrecords : (if status.isOk then s.appended ++ [c] else s.appended).mapIdx (fun i c => c.record i) =
      s.records ++ if status.isOk then [c.record s.records.length] else [] := by
    have hlength : s.records.length = s.appended.length := List.length_mapIdx
    split_ifs
    · rw [List.mapIdx_append, hlength]
      simp [records]
    · rw [List.append_nil]
      rfl
  refine ⟨?_, hzeros, fun t ht => ?_⟩
  · rw [records, hrecords]
    exact hholds
  · obtain ⟨k, hreads⟩ := h.readers t ht
    refine ⟨k, ?_⟩
    rw [records, hrecords, hlen]
    exact hreads.append _

theorem Inv.openReader {s : SharedLog} (h : s.Inv) (calls : OpenCalls) :
    (s.step (.openReader calls : SharedStep σ)).Inv := by
  simp only [step]
  split
  · exact h
  case h_2 r hopen =>
    refine ⟨h.holds, h.zeros, fun t ht => ?_⟩
    rcases List.mem_append.mp ht with ht | ht
    · exact h.readers t ht
    · rw [List.mem_singleton.mp ht]
      exact ⟨0, Session.reads_of_openPath hopen s.records⟩

theorem Inv.read {s : SharedLog} (h : s.Inv) (i : Nat) (c : ReaderCall σ) : (s.step (.read i c)).Inv := by
  refine ⟨h.holds, h.zeros, fun t ht => ?_⟩
  obtain ⟨j, hj⟩ := List.getElem?_of_mem ht
  simp only [step, List.getElem?_modify] at hj
  cases ht' : s.readers[j]? with
  | none => simp [ht'] at hj
  | some t' =>
    obtain ⟨k, hreads⟩ := h.readers t' (List.mem_of_getElem? ht')
    rw [ht', Option.map_eq_map, Option.map_some, Option.some.injEq] at hj
    split_ifs at hj
    · rw [← hj]
      exact hreads.step h.holds h.zeros c
    · rw [← hj]
      exact ⟨k, hreads⟩

theorem statuses_step (s : SharedLog) (a : SharedStep σ) : s.statuses <+: (s.step a).statuses := by
  cases a with
  | append c => exact List.prefix_append _ _
  | openReader calls =>
    simp only [step]
    split <;> exact List.prefix_rfl
  | read i c => exact List.prefix_rfl

theorem Inv.step {s : SharedLog} (h : s.Inv) (a : SharedStep σ)
    (hflush : ∀ status ∈ (s.step a).statuses, status.code ≠ .ioError) : (s.step a).Inv := by
  cases a with
  | append c => exact h.append c (hflush _ (List.mem_append_right _ (List.mem_singleton_self _)))
  | openReader calls => exact h.openReader calls
  | read i c => exact h.read i c

theorem Inv.run {s : SharedLog} (h : s.Inv) (steps : List (SharedStep σ))
    (hflush : ∀ status ∈ (s.run steps).statuses, status.code ≠ .ioError) : (s.run steps).Inv := by
  induction steps using List.reverseRecOn with
  | nil => exact h
  | append_singleton steps a ih =>
    rw [SharedLog.run, List.foldl_append] at hflush ⊢
    refine Inv.step (ih fun status hstatus => hflush status ?_) a hflush
    exact (statuses_step (s.run steps) a).subset hstatus

end SharedLog
end AetherStream.Wal
