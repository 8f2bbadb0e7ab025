import AetherStream.Broker.CrashRecovery

/-! What is recovered when the machine itself goes down. The kernel writes the bytes of a mapping
back whenever it likes; only a successful `msync` says that all of them are on the disk. -/

namespace AetherStream.PersistentBroker
open Basis Bytes Wal
variable {cap : Capacity} {α : Type*} [TriviallyCopyable α]

namespace Session

def logged (s : Session cap α) : List α := s.queue.producer.accepted ++ s.inFlight

def syncs (s : Session cap α) : SessionStep α → Bool
  | .producer (.append clock msyncOk) =>
    match s.publish with
    | .notFull value flags =>
      s.writer.flushOnAppend && (s.writer.append (messageView value flags) clock msyncOk).1.isOk
    | _ => false
  | _ => false

end Session

/-- A session over a file whose bytes reach the disk in any order: `versions` are the contents
since the last successful `msync`, `durable` the values that were in the log then. -/
structure Machine (cap : Capacity) (α : Type*) where
  session : Session cap α
  versions : List FileContent
  durable : List α := []

inductive MachineStep (α : Type*)
  | session (a : SessionStep α)
  | flush (msyncOk : Bool)

namespace Machine

def start (before : FileContent) (b : PersistentBroker cap α) : Machine cap α :=
  ⟨.start b, [before, b.writer.file.content], []⟩

def synced (s : Session cap α) : Machine cap α := ⟨s, [s.writer.file.content], s.logged⟩

def step (d : Machine cap α) : MachineStep α → Machine cap α
  | .session a =>
    if d.session.syncs a then synced (d.session.step a)
    else ⟨d.session.step a, d.versions ++ [(d.session.step a).writer.file.content], d.durable⟩
  | .flush msyncOk =>
    if d.session.valid && (d.session.writer.flush msyncOk).isOk then synced d.session else d

def run (d : Machine cap α) (steps : List (MachineStep α)) : Machine cap α := steps.foldl step d

/-- What the disk can hold after the machine went down while the mapping was `during`. -/
def Lost (d : Machine cap α) (during after : FileContent) : Prop :=
  Blend ((d.versions ++ [during]).map (·.bytes)) after.bytes

end Machine

namespace Session
variable {s s' : Session cap α} {records : List Record}

theorem slack_le (h : s'.inFlight = s.inFlight ∨ s'.inFlight = []) : s.slack ≤ s'.slack := by
  unfold slack
  rcases h with h | h
  · rw [h]
  · rw [if_pos h]
    split_ifs <;> omega

theorem flushOnAppend_append (w : WalWriter) (message : MessageView) (clock : UInt64) (msyncOk : Bool) :
    (w.append message clock msyncOk).2.flushOnAppend = w.flushOnAppend := by
  unfold WalWriter.append
  dsimp only
  split_ifs <;> rfl

theorem Inv.append_fails (hinv : s.Inv records) {value : α} {flags : UInt32} (hpc : s.publish = .notFull value flags)
    {clock : UInt64} {msyncOk : Bool}
    (hfail : (s.writer.append (messageView value flags) clock msyncOk).1.isOk = false) :
    (s.publishStep (.append clock msyncOk)).Inv records ∧ (s.publishStep (.append clock msyncOk)).inFlight = [] := by
  obtain ⟨more, hinv'⟩ := hinv.append hpc clock msyncOk
  have hflight : s.inFlight = [] := by rw [inFlight, hpc]
  have hstep : (s.publishStep (.append clock msyncOk)).queue = s.queue ∧
      (s.publishStep (.append clock msyncOk)).inFlight = [] := by
    simp only [publishStep, hpc, hfail, Bool.not_false, if_true]
    exact ⟨rfl, rfl⟩
  -- as many records as values, and no value was added
  have hlen := congrArg List.length hinv'.payloads
  have hlen₀ := congrArg List.length hinv.payloads
  rw [hstep.1, hstep.2] at hlen
  rw [hflight] at hlen₀
  simp only [List.length_map, List.length_append] at hlen hlen₀
  obtain rfl : more = [] := List.length_eq_zero_iff.mp (by omega)
  rw [List.append_nil] at hinv'
  exact ⟨hinv', hstep.2⟩

theorem Inv.step_unsynced (hinv : s.Inv records) (hflush : s.writer.flushOnAppend = true) {a : SessionStep α}
    (hsync : s.syncs a = false) : (s.step a).Inv records ∧ s.slack ≤ (s.step a).slack := by
  cases a with
  | consumer a =>
    refine ⟨hinv.consumer a, slack_le (Or.inl ?_)⟩
    cases a <;> simp only [Session.step] <;> (try split) <;> rfl
  | producer a =>
    show (s.publishStep a).Inv records ∧ s.slack ≤ (s.publishStep a).slack
    by_cases ha : ∃ clock msyncOk, a = .append clock msyncOk
    · obtain ⟨clock, msyncOk, rfl⟩ := ha
      cases hpc : s.publish with
      | notFull value flags =>
        simp only [syncs, hpc, hflush, Bool.true_and] at hsync
        obtain ⟨hinv', hnone⟩ := hinv.append_fails hpc hsync
        exact ⟨hinv', slack_le (Or.inr hnone)⟩
      | idle => simpa [publishStep, hpc] using hinv
      | loadedHead value flags head => simpa [publishStep, hpc] using hinv
      | appended value => simpa [publishStep, hpc] using hinv
    · have ha' (clock : UInt64) (msyncOk : Bool) : a ≠ .append clock msyncOk := fun h => ha ⟨clock, msyncOk, h⟩
      exact ⟨hinv.publishStep_keep a ha', slack_le (s.publishStep_log a ha').2.2⟩

theorem flushOnAppend_step (s : Session cap α) (a : SessionStep α) :
    (s.step a).writer.flushOnAppend = s.writer.flushOnAppend := by
  rcases s.writer_step a with hsame | ⟨message, clock, msyncOk, happend⟩
  · rw [hsame]
  · rw [happend, flushOnAppend_append]

theorem Image.of_same_records {content : FileContent} (h : s.Image content) (hinv : s.Inv records)
    (hinv' : s'.Inv records) (hslack : s.slack ≤ s'.slack) : s'.Image content := by
  have hoffset : s'.writer.currentOffset.toNat = s.writer.currentOffset.toNat :=
    hinv'.writer.offset.trans hinv.writer.offset.symm
  refine ⟨fun i hi => ?_, fun i x hi hx => h.zeros i x (by omega) hx⟩
  have hi₀ : i < s.writer.currentOffset.toNat := hoffset ▸ hi
  rw [h.committed i hi₀, ← List.getElem?_take_of_lt hi₀, hinv.writer.text, ← hinv'.writer.text,
    List.getElem?_take_of_lt hi]

theorem Image.blend {versions : List FileContent} (h : ∀ content ∈ versions, s.Image content) {after : FileContent}
    (hafter : Blend (versions.map (·.bytes)) after.bytes) : s.Image after := by
  have hbyte (i : Nat) : ∃ content, s.Image content ∧ after.bytes[i]? = content.bytes[i]? := by
    obtain ⟨bs, hbs, heq⟩ := hafter i
    obtain ⟨content, hmem, rfl⟩ := List.mem_map.mp hbs
    exact ⟨content, h content hmem, heq⟩
  refine ⟨fun i hi => ?_, fun i x hi hx => ?_⟩
  · obtain ⟨content, himage, heq⟩ := hbyte i
    exact heq.trans (himage.committed i hi)
  · obtain ⟨content, himage, heq⟩ := hbyte i
    exact himage.zeros i x hi (heq ▸ hx)

end Session

namespace Machine

/-- Every version starts with the records of the durable values. If every append is flushed,
these are all the values of the log, and every version has nothing else but part of a record. -/
structure Safe (d : Machine cap α) : Prop where
  logged : ∃ failed lost, d.session.Logged failed lost
  kept : ∃ records more, d.session.Inv (records ++ more) ∧
    records.map Record.payload = d.durable.map TriviallyCopyable.bytes ∧
    ∀ content ∈ d.versions, records.flatMap Record.encode <+: content.bytes
  flushed : d.session.writer.flushOnAppend = true →
    d.durable = d.session.logged ∧ (d.durable ≠ [] → ∀ content ∈ d.versions, d.session.Image content)

variable {d : Machine cap α}

theorem flatMap_encode_isPrefix {w : WalWriter} {records more : List Record} (h : w.Holds (records ++ more)) :
    records.flatMap Record.encode <+: w.file.bytes := by
  rw [h.bytes_eq, List.flatMap_append, List.append_assoc]
  exact List.prefix_append _ _

theorem safe_synced {s : Session cap α} {failed : List α} {lost : Option α} (h : s.Logged failed lost) :
    (synced s).Safe where
  logged := ⟨failed, lost, h⟩
  kept := by
    obtain ⟨records, hinv⟩ := h.inv
    have hinv' : s.Inv (records ++ []) := by rwa [List.append_nil]
    refine ⟨records, [], hinv', hinv.payloads, fun content hmem => ?_⟩
    obtain rfl := List.mem_singleton.mp hmem
    exact flatMap_encode_isPrefix hinv'.writer
  flushed _ := by
    refine ⟨rfl, fun _ content hmem => ?_⟩
    obtain rfl := List.mem_singleton.mp hmem
    exact h.image

theorem safe_start {b : PersistentBroker cap α} (hserving : b.Serving []) (hbroker : b.broker = {})
    (hzeros : ∀ x ∈ b.writer.rest, x = 0) (before : FileContent) : (start before b).Safe where
  logged := ⟨[], none, Session.logged_start hserving hbroker hzeros⟩
  kept := ⟨[], [], Session.inv_start hserving hbroker, rfl, fun _ _ => List.nil_prefix⟩
  flushed _ := ⟨rfl, fun h => absurd rfl h⟩

theorem Safe.step (h : d.Safe) (a : MachineStep α) : (d.step a).Safe := by
  obtain ⟨failed, lost, hlogged⟩ := h.logged
  cases a with
  | flush msyncOk =>
    simp only [Machine.step]
    split
    · exact safe_synced hlogged
    · exact h
  | session a =>
    simp only [Machine.step]
    obtain ⟨lost', hlogged'⟩ := hlogged.step a
    split
    · exact safe_synced hlogged'
    case isFalse hsync =>
      rw [Bool.not_eq_true] at hsync
      obtain ⟨records, more, hinv, hpayloads, hversions⟩ := h.kept
      obtain ⟨more', hinv'⟩ := hinv.step a
      rw [List.append_assoc] at hinv'
      refine ⟨⟨_, lost', hlogged'⟩, ⟨records, more ++ more', hinv', hpayloads, fun content hmem => ?_⟩,
        fun hflush => ?_⟩
      · rcases List.mem_append.mp hmem with hmem | hmem
        · exact hversions content hmem
        · obtain rfl := List.mem_singleton.mp hmem
          exact flatMap_encode_isPrefix hinv'.writer
      · replace hflush : d.session.writer.flushOnAppend = true := (d.session.flushOnAppend_step a).symm.trans hflush
        obtain ⟨hsame, hslack⟩ := hinv.step_unsynced hflush hsync
        obtain ⟨hdurable, himages⟩ := h.flushed hflush
        refine ⟨hdurable.trans (Session.accepted_of_same_records hinv hsame).symm, fun hne content hmem => ?_⟩
        rcases List.mem_append.mp hmem with hmem | hmem
        · exact (himages hne content hmem).of_same_records hinv hsame hslack
        · obtain rfl := List.mem_singleton.mp hmem
          exact hlogged'.image

theorem Safe.run (h : d.Safe) (steps : List (MachineStep α)) : (d.run steps).Safe := by
  induction steps generalizing d with
  | nil => exact h
  | cons a steps ih => exact ih (h.step a)

theorem flushOnAppend_run (d : Machine cap α) (steps : List (MachineStep α)) :
    (d.run steps).session.writer.flushOnAppend = d.session.writer.flushOnAppend := by
  refine List.foldlRecOn (motive := fun d' : Machine cap α =>
    d'.session.writer.flushOnAppend = d.session.writer.flushOnAppend) steps Machine.step rfl ?_
  intro d' ih a _
  rw [← ih]
  cases a with
  | flush msyncOk =>
    simp only [Machine.step]
    split <;> rfl
  | session a =>
    simp only [Machine.step]
    split <;> exact d'.session.flushOnAppend_step a

theorem flushOnAppend_openConfig {config : BrokerConfig} {calls : CreateCalls} {b : PersistentBroker cap α}
    (h : ({} : PersistentBroker cap α).openConfig config calls = (.ok, b)) :
    b.writer.flushOnAppend = config.wal.flushOnCommit := by
  rcases openConfig_cases ({} : PersistentBroker cap α) config calls with
    ⟨status, hne, heq⟩ | ⟨writer, hcreate, heq⟩
  · obtain ⟨rfl, -⟩ := Prod.mk.inj (heq.symm.trans h)
    contradiction
  · obtain ⟨-, rfl⟩ := Prod.mk.inj (heq.symm.trans h)
    unfold WalWriter.createConfig at hcreate
    split at hcreate; · contradiction
    exact (WalWriter.holds_create hcreate).2.2

theorem Safe.isPrefix_lost (h : d.Safe) {during after : FileContent} (hcrash : d.session.Crash during)
    (hafter : d.Lost during after) :
    ∃ records : List Record, (∀ r ∈ records, r.Sealed) ∧
      records.map Record.payload = d.durable.map TriviallyCopyable.bytes ∧
      records.flatMap Record.encode <+: after.bytes := by
  obtain ⟨failed, lost, hlogged⟩ := h.logged
  obtain ⟨records, more, hinv, hpayloads, hversions⟩ := h.kept
  refine ⟨records, fun r hr => hinv.writer.isSealed r (List.mem_append_left more hr), hpayloads, ?_⟩
  refine hafter.isPrefix fun bs hbs => ?_
  obtain ⟨content, hmem, rfl⟩ := List.mem_map.mp hbs
  rcases List.mem_append.mp hmem with hmem | hmem
  · exact hversions content hmem
  · obtain rfl := List.mem_singleton.mp hmem
    have htake := (hcrash.image hlogged).take_bytes hinv.writer
    rw [List.flatMap_append] at htake
    exact (List.prefix_append _ _).trans (htake ▸ List.take_prefix _ _)

/-- A machine that goes down at any moment leaves a file from which every value that was in the
log at the last successful flush is recovered, in order. With `flush_on_commit` these are all
values that were consumed or queued, and once there is one, at most one more is found behind
them; before that, the disk may still have what the path held earlier. -/
theorem power_loss (config : BrokerConfig) (calls : CreateCalls) (b : PersistentBroker cap α)
    (hopen : ({} : PersistentBroker cap α).openConfig config calls = (.ok, b)) (before : FileContent)
    (steps : List (MachineStep α)) (during after : FileContent)
    (hcrash : ((start before b).run steps).session.Crash during)
    (hafter : ((start before b).run steps).Lost during after) (path : String) (openCalls : OpenCalls)
    (r : WalReader) (hread : WalReader.openPath path after openCalls = .ok r) :
    let d := (start before b).run steps
    let delivered := d.session.consumed ++ d.session.queued
    ∃ (status : Status) (values : List α),
      Recovers path after openCalls status values ∧
      d.durable <+: values ∧
      (config.wal.flushOnCommit = true →
        delivered <+: values.map some ∧ (d.durable ≠ [] → values.length ≤ delivered.length + 1)) := by
  intro d delivered
  obtain ⟨hserving, hbroker, hzeros⟩ := serving_openConfig hopen
  have h : d.Safe := (safe_start hserving hbroker hzeros before).run steps
  have hmode : d.session.writer.flushOnAppend = config.wal.flushOnCommit :=
    (flushOnAppend_run _ steps).trans (flushOnAppend_openConfig hopen)
  obtain ⟨failed, lost, hlogged⟩ := h.logged
  obtain ⟨_, hinv⟩ := hlogged.inv
  have hdelivered : delivered = d.session.queue.producer.accepted.map some := hinv.consumed_append_queued
  by_cases hflush : config.wal.flushOnCommit = true ∧ d.durable ≠ []
  · obtain ⟨hdurable, himages⟩ := h.flushed (hmode.trans hflush.1)
    have himage : d.session.Image after := by
      refine Session.Image.blend (fun content hmem => ?_) hafter
      rcases List.mem_append.mp hmem with hmem | hmem
      · exact himages hflush.2 content hmem
      · obtain rfl := List.mem_singleton.mp hmem
        exact hcrash.image hlogged
    obtain ⟨status, more, hrecovers, hlen⟩ := himage.recovers hlogged hread
    refine ⟨status, _, hrecovers, ?_, fun _ => ⟨?_, fun _ => ?_⟩⟩
    · rw [hdurable, ← List.append_assoc]
      exact List.prefix_append _ _
    · rw [hdelivered, List.map_append]
      exact List.prefix_append _ _
    · rw [hdelivered, List.length_map, List.length_append]
      exact Nat.add_le_add_left hlen _
  · obtain ⟨records, hsealed, hpayloads, tail, htail⟩ := h.isPrefix_lost hcrash hafter
    have hsplit : framing.Splits r.rest records tail := by
      rw [(WalReader.ready_of_openPath hread).2.2, ← htail]
      exact splits_encode hsealed tail
    obtain ⟨status, more, hrecovers, -⟩ := recovers_prefix hread hsplit hpayloads
    refine ⟨status, _, hrecovers, List.prefix_append _ _, fun hcommit => ?_⟩
    obtain hnone : d.durable = [] := by
      by_contra hne
      exact hflush ⟨hcommit, hne⟩
    -- nothing was ever written
    have hempty := (h.flushed (hmode.trans hcommit)).1.symm.trans hnone
    rw [hdelivered, (List.append_eq_nil_iff.mp hempty).1]
    exact ⟨List.nil_prefix, fun hne => absurd hnone hne⟩

def halfPublishedFlushed : Machine .least UInt8 :=
  (start Session.tornSeven Session.smallBroker).run (Session.halfPublished.map .session)

theorem power_loss_halfPublished :
    ∃ r : WalReader,
      ({} : PersistentBroker .least UInt8).openConfig smallConfig ⟨some 3, true, some 4096⟩ =
        (.ok, Session.smallBroker) ∧
      WalReader.openPath "aether.wal" halfPublishedFlushed.session.writer.file.content
        ⟨some 4, true, some 8192⟩ = .ok r ∧
      ∃ (status : Status) (values : List UInt8),
        Recovers "aether.wal" halfPublishedFlushed.session.writer.file.content
          ⟨some 4, true, some 8192⟩ status values ∧
        [7] <+: values := by
  have hopen : ({} : PersistentBroker .least UInt8).openConfig smallConfig ⟨some 3, true, some 4096⟩ =
    (.ok, Session.smallBroker) := rfl
  refine ⟨_, hopen, rfl, ?_⟩
  obtain ⟨status, values, hrecovers, hdurable, -⟩ := power_loss smallConfig _ _ hopen Session.tornSeven
    (Session.halfPublished.map .session) _ _ .between (.of_mem (List.mem_map_of_mem (List.mem_append_right _
      (List.mem_singleton_self _)))) "aether.wal" ⟨some 4, true, some 8192⟩ _ rfl
  exact ⟨status, values, hrecovers, hdurable⟩

end Machine
end AetherStream.PersistentBroker
