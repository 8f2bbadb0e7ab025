import AetherStream.Broker.Recovery
import AetherStream.Queue.SpscSafety

/-! One producer in `try_publish` and one consumer in `try_consume`, step by step, on an
opened `PersistentBroker`: at every moment the log is ahead of the queue by at most the one
record whose value is still on its way. -/

namespace AetherStream.PersistentBroker
open Basis Wal

inductive PublishPc (α : Type*) where
  | idle
  | loadedHead (value : α) (flags : UInt32) (head : UInt64)
  | notFull (value : α) (flags : UInt32)
  | appended (value : α)
  deriving DecidableEq, Repr

/-- `enter` checks `valid()` and starts `full()` with the load of `head_`. -/
inductive PublishStep (α : Type*) where
  | enter (value : α) (flags : UInt32)
  | loadTail (k : Nat)
  | append (clock : UInt64) (msyncOk : Bool)
  | push (a : PushStep)

inductive SessionStep (α : Type*) where
  | producer (a : PublishStep α)
  | consumer (a : PopStep α)

/-- A broker in use by its two threads; `replies` is what `try_publish` returned so far. -/
structure Session (cap : Capacity) (α : Type*) where
  openStatus : Status
  writer : WalWriter
  queue : SpscRingBuffer cap α
  publish : PublishPc α := .idle
  replies : List Status := []

namespace Session
variable {cap : Capacity} {α : Type*}

def start (b : PersistentBroker cap α) : Session cap α where
  openStatus := b.openStatus
  writer := b.writer
  queue := ⟨b.broker.queue, ⟨.idle, 0, []⟩, .initial α⟩

def valid (s : Session cap α) : Bool := s.openStatus.isOk && s.writer.valid

def returning (s : Session cap α) (status : Status) : Session cap α :=
  { s with publish := .idle, replies := s.replies ++ [status] }

variable [TriviallyCopyable α]

def publishStep (s : Session cap α) (a : PublishStep α) : Session cap α :=
  match s.publish, a with
  | .idle, .enter value flags =>
    if !s.valid then s.returning s.openStatus
    else { s with publish := .loadedHead value flags s.queue.ring.head.current }
  | .loadedHead value flags head, .loadTail k =>
    match s.queue.ring.tail.load s.queue.producer.tailView k with
    | none => s
    | some tail =>
      let s := { s with queue.producer.tailView := k }
      if cap.size ≤ head - tail then s.returning ⟨.full, "broker queue is full"⟩
      else { s with publish := .notFull value flags }
  | .notFull value flags, .append clock msyncOk =>
    let (status, writer) := s.writer.append (messageView value flags) clock msyncOk
    let s := { s with writer := writer }
    if !status.isOk then s.returning status else { s with publish := .appended value }
  | .appended value, .push a =>
    let result := (s.queue.ring.emplaceStep (a.emplace value) s.queue.producer).2.2
    let s := { s with queue := s.queue.step (.producer (a.emplace value)) }
    match result with
    | none => s
    | some true => s.returning .ok
    | some false => s.returning ⟨.unknown, "queue publish failed after WAL append"⟩
  | _, _ => s

/-- Moving a trivially copyable value does not throw. -/
def step (s : Session cap α) : SessionStep α → Session cap α
  | .producer a => s.publishStep a
  | .consumer (.moveThrows _) => s
  | .consumer a => if !s.valid then s else { s with queue := s.queue.step (.consumer a) }

def run (s : Session cap α) (steps : List (SessionStep α)) : Session cap α := steps.foldl step s

def consumed (s : Session cap α) : List (Option α) := s.queue.consumer.returned ++ s.queue.consumer.pc.inHand

def queued (s : Session cap α) : List (Option α) := s.queue.ring.contents.drop s.queue.consumer.pc.taken

omit [TriviallyCopyable α] in
def inFlight (s : Session cap α) : List α :=
  match s.publish with
  | .appended value => [value]
  | _ => []

omit [TriviallyCopyable α] in
/-- Where the producer's own variables stand: a publish past `full()` has seen room. -/
def PublishAt (s : Session cap α) : Prop :=
  let h := s.queue.producer.accepted.length
  match s.publish with
  | .idle => s.queue.producer.pc = .idle
  | .loadedHead _ _ head => s.queue.producer.pc = .idle ∧ head = UInt64.ofNat h
  | .notFull _ _ => s.queue.producer.pc = .idle ∧ h < s.queue.producer.tailView + cap.toNat
  | .appended value =>
    SpscRingBuffer.Carries value s.queue.producer.pc ∧ h < s.queue.producer.tailView + cap.toNat

structure Inv (s : Session cap α) (records : List Record) : Prop where
  valid : s.valid = true
  queue : s.queue.Inv
  holds : s.queue.ring.Holds s.queue.consumer s.queue.values
  writer : s.writer.Holds records
  numbered : ∀ i r, records[i]? = some r → r.header.sequence = UInt64.ofNat i
  payloads : records.map Record.payload =
    (s.queue.producer.accepted ++ s.inFlight).map TriviallyCopyable.bytes
  publishAt : s.PublishAt

theorem inv_start {b : PersistentBroker cap α} (hserving : b.Serving []) (hbroker : b.broker = {}) :
    (start b).Inv [] := by
  have hqueue : (start b).queue = SpscRingBuffer.initial cap α := by
    simp only [start, hbroker]
    rfl
  refine ⟨hserving.valid, ?_, ?_, hserving.writer, by simp, rfl, rfl⟩
  · rw [hqueue]
    exact SpscRingBuffer.inv_initial cap α
  · rw [hqueue]
    exact Ring.holds_empty cap α

section Steps
variable {s : Session cap α} {records : List Record} (hinv : s.Inv records)
include hinv

theorem Inv.local_step {s' : Session cap α} (hstatus : s'.openStatus = s.openStatus) (hwriter : s'.writer = s.writer)
    (hqueue : s'.queue = s.queue) (hflight : s'.inFlight = s.inFlight) (hat : s'.PublishAt) : s'.Inv records := by
  refine ⟨?_, ?_, ?_, ?_, hinv.numbered, ?_, hat⟩
  · rw [Session.valid, hstatus, hwriter]
    exact hinv.valid
  · rw [hqueue]
    exact hinv.queue
  · rw [hqueue]
    exact hinv.holds
  · rw [hwriter]
    exact hinv.writer
  · rw [hqueue, hflight]
    exact hinv.payloads

theorem Inv.enter (hpc : s.publish = .idle) (value : α) (flags : UInt32) :
    (s.publishStep (.enter value flags)).Inv records := by
  have hidle : s.queue.producer.pc = .idle := by
    have hat := hinv.publishAt
    rwa [PublishAt, hpc] at hat
  simp only [publishStep, hpc, hinv.valid, Bool.not_true, Bool.false_eq_true, if_false]
  refine hinv.local_step rfl rfl rfl ?_ ⟨hidle, hinv.queue.ring.head_counts.current_eq⟩
  rw [inFlight, inFlight, hpc]

theorem Inv.loadTail {value : α} {flags : UInt32} {head : UInt64} (hpc : s.publish = .loadedHead value flags head)
    (k : Nat) : (s.publishStep (.loadTail k)).Inv records := by
  -- the `tail_` that `full()` looks at may be stale
  obtain ⟨hidle, rfl⟩ : s.queue.producer.pc = .idle ∧ head = UInt64.ofNat s.queue.producer.accepted.length := by
    have hat := hinv.publishAt
    rwa [PublishAt, hpc] at hat
  simp only [publishStep, hpc]
  split
  · exact hinv
  case h_2 tail hload =>
    obtain ⟨hk, hk', rfl⟩ := hinv.queue.ring.tail_counts.load_eq_some.mp hload
    have hle := hinv.queue.ring.popped_le_head
    have hwin := hinv.queue.window
    have hqueue : SpscRingBuffer.Inv { s.queue with producer := { s.queue.producer with tailView := k } } :=
      hinv.queue.local_step rfl rfl hk hk' (by rw [hidle]; trivial)
    have hflight : s.inFlight = [] := by rw [inFlight, hpc]
    have hpayloads := hinv.payloads
    rw [hflight] at hpayloads
    split_ifs with hfull
    · exact ⟨hinv.valid, hqueue, hinv.holds, hinv.writer, hinv.numbered, hpayloads, hidle⟩
    · rw [cap.size_le_sub_iff (hk'.trans hle) (by omega)] at hfull
      exact ⟨hinv.valid, hqueue, hinv.holds, hinv.writer, hinv.numbered, hpayloads, hidle, Nat.lt_of_not_le hfull⟩

theorem Inv.append {value : α} {flags : UInt32} (hpc : s.publish = .notFull value flags) (clock : UInt64)
    (msyncOk : Bool) : ∃ more, (s.publishStep (.append clock msyncOk)).Inv (records ++ more) := by
  -- the append commits the record exactly if the publish goes on
  obtain ⟨hidle, hroom⟩ : s.queue.producer.pc = .idle ∧
      s.queue.producer.accepted.length < s.queue.producer.tailView + cap.toNat := by
    have hat := hinv.publishAt
    rwa [PublishAt, hpc] at hat
  have hflight : s.inFlight = [] := by rw [inFlight, hpc]
  have hpayloads := hinv.payloads
  rw [hflight] at hpayloads
  have hopen := (Bool.and_eq_true_iff.mp hinv.valid).1
  have hstep := hinv.writer.append ⟨messageView value flags, clock, msyncOk⟩
  simp only [publishStep, hpc]
  rcases happend : s.writer.append (messageView value flags) clock msyncOk with ⟨status, writer⟩
  simp only [happend] at hstep
  have hvalid : (s.openStatus.isOk && writer.valid) = true := by rw [hopen, hstep.valid]; rfl
  cases hok : status.isOk with
  | false =>
    simp only [hok, Bool.false_eq_true, if_false, List.append_nil] at hstep
    refine ⟨[], ?_⟩
    rw [List.append_nil]
    exact ⟨hvalid, hinv.queue, hinv.holds, hstep, hinv.numbered, hpayloads, hidle⟩
  | true =>
    simp only [hok, if_true] at hstep
    refine ⟨_, hvalid, hinv.queue, hinv.holds, hstep, ?_, ?_, ?_, hroom⟩
    · intro i r hr
      rw [List.getElem?_append] at hr
      split_ifs at hr with hi
      · exact hinv.numbered i r hr
      · obtain ⟨hlast, rfl⟩ := List.getElem?_eq_some_iff.mp hr
        obtain rfl : i = records.length := by
          rw [List.length_singleton] at hlast
          omega
        simp [AppendCall.record, WalWriter.recordHeader]
    · rw [List.map_append, hpayloads]
      simp [inFlight, AppendCall.record, messageView]
    · exact hidle ▸ trivial

theorem Inv.push {value : α} (hpc : s.publish = .appended value) (a : PushStep) :
    (s.publishStep (.push a)).Inv records := by
  -- the room that `full()` saw is still there: only this thread pushes
  obtain ⟨hcarries, hroom⟩ : SpscRingBuffer.Carries value s.queue.producer.pc ∧
      s.queue.producer.accepted.length < s.queue.producer.tailView + cap.toNat := by
    have hat := hinv.publishAt
    rwa [PublishAt, hpc] at hat
  have hqueue := hinv.queue.step (.producer (a.emplace value))
  have hholds := hinv.queue.holds_step hinv.holds (.producer (a.emplace value)) (by simp)
  have hpayloads := hinv.payloads
  rw [inFlight, hpc] at hpayloads
  simp only [publishStep, hpc]
  rcases hinv.queue.push_of_room hcarries hroom a with ⟨hresult, hcarries', hacc, hroom'⟩ | ⟨hresult, hidle, hacc⟩
  · rw [hresult]
    refine ⟨hinv.valid, hqueue, hholds, hinv.writer, hinv.numbered, ?_, ?_⟩
    · simpa only [inFlight, hpc, SpscRingBuffer.step, hacc] using hpayloads
    · simp only [PublishAt]
      exact ⟨hcarries', hroom'⟩
  · rw [hresult]
    refine ⟨hinv.valid, hqueue, hholds, hinv.writer, hinv.numbered, ?_, hidle⟩
    simpa only [inFlight, returning, SpscRingBuffer.step, hacc, List.append_nil] using hpayloads

theorem Inv.consumer (a : PopStep α) : (s.step (.consumer a)).Inv records := by
  by_cases hthrows : ∃ residue, a = .moveThrows residue
  · obtain ⟨residue, rfl⟩ := hthrows
    exact hinv
  · have hstep : s.step (.consumer a) = { s with queue := s.queue.step (.consumer a) } := by
      cases a <;> simp_all [step, hinv.valid]
    rw [hstep]
    have hqueue := hinv.queue.step (.consumer a)
    have hholds := hinv.queue.holds_step hinv.holds (.consumer a)
      fun residue heq => hthrows ⟨residue, SpscStep.consumer.inj heq⟩
    exact ⟨hinv.valid, hqueue, hholds, hinv.writer, hinv.numbered, hinv.payloads, hinv.publishAt⟩

theorem Inv.step (a : SessionStep α) : ∃ more, (s.step a).Inv (records ++ more) := by
  cases a with
  | consumer a => exact ⟨[], by rw [List.append_nil]; exact hinv.consumer a⟩
  | producer a =>
    have hkeep {s' : Session cap α} (h : s'.Inv records) : ∃ more, s'.Inv (records ++ more) :=
      ⟨[], by rwa [List.append_nil]⟩
    show ∃ more, (s.publishStep a).Inv (records ++ more)
    cases hpc : s.publish <;> cases a <;> first
      | exact hkeep (hinv.enter hpc _ _)
      | exact hkeep (hinv.loadTail hpc _)
      | exact hinv.append hpc _ _
      | exact hkeep (hinv.push hpc _)
      | exact hkeep (by simpa [publishStep, hpc] using hinv)

end Steps

theorem Inv.run {s : Session cap α} {records : List Record} (hinv : s.Inv records) (steps : List (SessionStep α)) :
    ∃ records, (s.run steps).Inv records := by
  refine List.foldlRecOn (motive := fun s : Session cap α => ∃ records, s.Inv records) steps Session.step
    ⟨records, hinv⟩ ?_
  rintro s ⟨records, hinv⟩ a -
  obtain ⟨more, hinv'⟩ := hinv.step a
  exact ⟨_, hinv'⟩

/-- At every moment, what was consumed and what is still queued are the payloads of the
first records of the log, in sequence order; only the record of a publish in progress can
be missing. -/
theorem wal_before_queue (config : BrokerConfig) (calls : CreateCalls) (b : PersistentBroker cap α)
    (hopen : ({} : PersistentBroker cap α).openConfig config calls = (.ok, b)) (steps : List (SessionStep α)) :
    let s := (start b).run steps
    ∃ (chunks : List (List UInt8)) (records : List Record) (values : List α),
      IsLog (s.writer.file.bytes.take s.writer.currentOffset.toNat) chunks records [] ∧
      records.length = s.writer.nextSequence.toNat ∧
      (∀ (i : Nat) (r : Record), records[i]? = some r → r.header.sequence.toNat = i) ∧
      s.consumed ++ s.queued = values.map some ∧
      values.map TriviallyCopyable.bytes <+: records.map Record.payload ∧
      records.length ≤ values.length + 1 ∧
      (s.publish = .idle → records.length = values.length) ∧
      ∀ (i : Nat) (v : Option α), s.consumed[i]? = some v →
        ∃ (value : α) (r : Record), v = some value ∧ records[i]? = some r ∧
          r.payload = TriviallyCopyable.bytes value := by
  intro s
  obtain ⟨hserving, hbroker, -⟩ := serving_openConfig hopen
  obtain ⟨records, hinv⟩ : ∃ records, s.Inv records := (inv_start hserving hbroker).run steps
  have hlen := hinv.writer.length_lt
  have hvalues : s.consumed ++ s.queued = s.queue.producer.accepted.map some := by
    have htaken := hinv.holds.taken_append_contents hinv.queue.ring s.queue.length_values
    rwa [SpscRingBuffer.take_values] at htaken
  have hpayloads := hinv.payloads
  have hlog := isLog_encode hinv.writer.isSealed []
  rw [List.append_nil, ← hinv.writer.text] at hlog
  have hcount := congrArg List.length hpayloads
  rw [List.length_map, List.length_map, List.length_append] at hcount
  refine ⟨_, records, s.queue.producer.accepted, hlog, ?_, ?_, hvalues, ?_, ?_, ?_, ?_⟩
  · rw [hinv.writer.sequence]
    exact (UInt64.toNat_ofNat_of_lt' (hlen.trans (by decide))).symm
  · intro i r hr
    rw [hinv.numbered i r hr]
    exact UInt64.toNat_ofNat_of_lt' (((List.getElem?_eq_some_iff.mp hr).1.trans hlen).trans (by decide))
  · rw [hpayloads, List.map_append]
    exact List.prefix_append _ _
  · have hflight : s.inFlight.length ≤ 1 := by
      unfold inFlight
      split <;> simp
    omega
  · intro hidle
    have hflight : s.inFlight = [] := by rw [inFlight, hidle]
    rw [hflight] at hcount
    exact hcount
  · intro i v hv
    have hget : (s.consumed ++ s.queued)[i]? = some v := by
      rwa [List.getElem?_append_left (List.getElem?_eq_some_iff.mp hv).1]
    rw [hvalues, List.getElem?_map, Option.map_eq_some_iff] at hget
    obtain ⟨value, hvalue, rfl⟩ := hget
    have hpayload : (records.map Record.payload)[i]? = some (TriviallyCopyable.bytes value) := by
      rw [hpayloads, List.getElem?_map, List.getElem?_append_left (List.getElem?_eq_some_iff.mp hvalue).1, hvalue]
      rfl
    rw [List.getElem?_map, Option.map_eq_some_iff] at hpayload
    obtain ⟨r, hr, hbytes⟩ := hpayload
    exact ⟨value, r, rfl, hr, hbytes⟩

def halfPublished : List (SessionStep UInt8) :=
  [.producer (.enter 7 0), .producer (.loadTail 0), .producer (.append 5 true)]

theorem wal_before_queue_halfPublished :
    ∃ b : PersistentBroker .least UInt8,
      ({} : PersistentBroker .least UInt8).openConfig smallConfig ⟨some 3, true, some 4096⟩ = (.ok, b) ∧
      ((start b).run halfPublished).queued = [] ∧
      ∃ chunks records, IsLog (((start b).run halfPublished).writer.file.bytes.take 41) chunks records [] ∧
        records.length = 1 := by
  refine ⟨_, rfl, rfl, ?_⟩
  have hopen : ({} : PersistentBroker .least UInt8).openConfig smallConfig ⟨some 3, true, some 4096⟩ = (.ok, _) := rfl
  obtain ⟨chunks, records, values, hlog, hlen, -⟩ := wal_before_queue smallConfig _ _ hopen halfPublished
  exact ⟨chunks, records, hlog, hlen⟩

omit [TriviallyCopyable α] in
theorem accepted_emplaceStep (a : EmplaceStep α) (r : Ring cap α) (p : Producer α) :
    p.accepted <+: (r.emplaceStep a p).2.1.accepted := by
  unfold Ring.emplaceStep
  split <;> (try split) <;> (try split) <;> simp

theorem replies_step (s : Session cap α) (a : SessionStep α) :
    s.replies <+: (s.step a).replies ∧ s.queue.producer.accepted <+: (s.step a).queue.producer.accepted := by
  cases a with
  | consumer a => cases a <;> simp only [step] <;> (try split) <;> exact ⟨List.prefix_rfl, List.prefix_rfl⟩
  | producer a =>
    show s.replies <+: (s.publishStep a).replies ∧ _ <+: (s.publishStep a).queue.producer.accepted
    unfold publishStep
    split
    case h_1 => split <;> exact ⟨by simp [returning], List.prefix_rfl⟩
    case h_2 =>
      split
      · exact ⟨List.prefix_rfl, List.prefix_rfl⟩
      · dsimp only
        split <;> exact ⟨by simp [returning], List.prefix_rfl⟩
    case h_3 =>
      dsimp only
      split <;> exact ⟨by simp [returning], List.prefix_rfl⟩
    case h_4 value a _ =>
      have hacc := accepted_emplaceStep (a.emplace value) s.queue.ring s.queue.producer
      dsimp only
      split <;> exact ⟨by simp [returning], hacc⟩
    case h_5 => exact ⟨List.prefix_rfl, List.prefix_rfl⟩

def Delivers (s : Session cap α) (value : α) (s' : Session cap α) : Prop :=
  (s'.publish = .appended value ∧ s'.replies = s.replies ∧
      s'.queue.producer.accepted = s.queue.producer.accepted) ∨
    (s.replies ++ [.ok] <+: s'.replies ∧ s.queue.producer.accepted ++ [value] <+: s'.queue.producer.accepted)

theorem Inv.appendedAt {s : Session cap α} {records : List Record} (hinv : s.Inv records) {value : α}
    (hpc : s.publish = .appended value) : SpscRingBuffer.Carries value s.queue.producer.pc ∧
      s.queue.producer.accepted.length < s.queue.producer.tailView + cap.toNat := by
  have hat := hinv.publishAt
  rwa [PublishAt, hpc] at hat

theorem Inv.delivers_step {s s' : Session cap α} {records : List Record} (hinv : s'.Inv records) {value : α}
    (h : s.Delivers value s') (a : SessionStep α) : s.Delivers value (s'.step a) := by
  obtain ⟨hreplies, haccepted⟩ := s'.replies_step a
  rcases h with ⟨hpc, hrep, hacc⟩ | ⟨hrep, hacc⟩
  · cases a with
    | consumer a =>
      left
      cases a <;> simp only [Session.step] <;> (try split) <;> exact ⟨hpc, hrep, hacc⟩
    | producer a =>
      show s.Delivers value (s'.publishStep a)
      cases a with
      | push a =>
        obtain ⟨hcarries, hroom⟩ := hinv.appendedAt hpc
        simp only [publishStep, hpc]
        rcases hinv.queue.push_of_room hcarries hroom a with ⟨hresult, -, hacc', -⟩ | ⟨hresult, -, hacc'⟩
        · rw [hresult]
          exact Or.inl ⟨rfl, hrep, hacc'.trans hacc⟩
        · rw [hresult]
          refine Or.inr ⟨?_, ?_⟩
          · show _ <+: s'.replies ++ [.ok]
            rw [hrep]
          · show _ <+: (s'.queue.ring.emplaceStep (a.emplace value) s'.queue.producer).2.1.accepted
            rw [hacc', hacc]
      | _ => exact Or.inl (by simpa [publishStep, hpc] using ⟨hrep, hacc⟩)
  · exact Or.inr ⟨hrep.trans hreplies, hacc.trans haccepted⟩

theorem Inv.delivers_run {s : Session cap α} {records : List Record} (hinv : s.Inv records) {value : α}
    (hpc : s.publish = .appended value) (steps : List (SessionStep α)) : s.Delivers value (s.run steps) := by
  have hstart : (∃ records, s.Inv records) ∧ s.Delivers value s := ⟨⟨records, hinv⟩, Or.inl ⟨hpc, rfl, rfl⟩⟩
  refine (List.foldlRecOn (motive := fun s' : Session cap α => (∃ records, s'.Inv records) ∧ s.Delivers value s')
    steps Session.step hstart ?_).2
  rintro s' ⟨⟨records, hinv'⟩, hdelivers⟩ a -
  obtain ⟨more, hnext⟩ := hinv'.step a
  exact ⟨⟨_, hnext⟩, hinv'.delivers_step hdelivers a⟩

def pushSteps (s : Session cap α) : List (SessionStep α) :=
  [.loadHead, .loadTail s.queue.consumer.popped, .constructAt, .storeHead].map fun a => .producer (.push a)

theorem Inv.run_pushSteps {s : Session cap α} {records : List Record} (hinv : s.Inv records) {value : α}
    (hpc : s.publish = .appended value) : (s.run s.pushSteps).publish = .idle := by
  obtain ⟨-, hroom⟩ := hinv.appendedAt hpc
  have hring := hinv.queue.ring
  have hpopped := hring.popped_le_head
  have hview := hinv.queue.view_le
  have hcap := hring.room
  have hload : s.queue.ring.tail.load s.queue.producer.tailView s.queue.consumer.popped =
      some (UInt64.ofNat s.queue.consumer.popped) := hring.tail_counts.load_eq_some.mpr ⟨hview, le_rfl, rfl⟩
  have hfits : ¬ cap.size ≤ UInt64.ofNat s.queue.producer.accepted.length - UInt64.ofNat s.queue.consumer.popped := by
    rw [cap.size_le_sub_iff hpopped (by omega)]
    omega
  have hat := hinv.queue.pc_at
  cases hq : s.queue.producer.pc <;> simp only [hq, EmplacePc.At] at hat <;>
    simp [Session.run, pushSteps, Session.step, publishStep, hpc, SpscRingBuffer.step, Ring.emplaceStep,
      PushStep.emplace, hq, hload, hat, hfits, hring.head_counts.current_eq, returning]

theorem run_of_not_valid {s : Session cap α} (hvalid : s.valid = false) (hpc : s.publish = .idle)
    (steps : List (SessionStep α)) :
    (s.run steps).publish = .idle ∧ (s.run steps).writer = s.writer ∧ (s.run steps).queue = s.queue := by
  have hstart : s.valid = false ∧ s.publish = .idle ∧ s.writer = s.writer ∧ s.queue = s.queue :=
    ⟨hvalid, hpc, rfl, rfl⟩
  refine (List.foldlRecOn (motive := fun s' : Session cap α =>
    s'.valid = false ∧ s'.publish = .idle ∧ s'.writer = s.writer ∧ s'.queue = s.queue) steps step hstart ?_).2
  rintro s' ⟨hvalid, hpc, hwriter, hqueue⟩ a -
  cases a with
  | consumer a => cases a <;> simp_all [step]
  | producer a =>
    cases a with
    | enter value flags =>
      simp only [step, publishStep, hpc, hvalid, Bool.not_false, if_true]
      exact ⟨hvalid, rfl, hwriter, hqueue⟩
    | _ =>
      simp only [step, publishStep, hpc]
      exact ⟨hvalid, trivial, hwriter, hqueue⟩

/-- Once `full()` has let a publish through to its append, the push cannot fail: whatever the
consumer does in between, the call is still on its way or has returned `ok`, and left alone
it returns. So the log has a record for each value that was pushed and for the one that is
being pushed, and for no other. -/
theorem publish_succeeds_after_append (opens : List (BrokerConfig × CreateCalls)) (steps : List (SessionStep α)) :
    let s : Session cap α := (start (openAll opens)).run steps
    (∀ value, s.publish = .appended value →
      (∀ a : PushStep, (s.queue.ring.emplaceStep (a.emplace value) s.queue.producer).2.2 ≠ some false) ∧
      (∀ more, s.Delivers value (s.run more)) ∧ (s.run s.pushSteps).publish = .idle) ∧
    ∃ records : List Record, (s.writer.valid = true → s.writer.Holds records) ∧
      records.map Record.payload = (s.queue.producer.accepted ++ s.inFlight).map TriviallyCopyable.bytes := by
  intro s
  have hopenable : (openAll opens : PersistentBroker cap α).Openable := openable_openAll opens
  by_cases hvalid : (openAll opens : PersistentBroker cap α).valid = true
  · obtain ⟨records, hinv⟩ : ∃ records, s.Inv records :=
      (inv_start (hopenable.serving hvalid) hopenable.broker).run steps
    refine ⟨fun value hpc => ⟨fun a => ?_, hinv.delivers_run hpc, hinv.run_pushSteps hpc⟩, records,
      fun _ => hinv.writer, hinv.payloads⟩
    obtain ⟨hcarries, hroom⟩ := hinv.appendedAt hpc
    rcases hinv.queue.push_of_room hcarries hroom a with ⟨hresult, -⟩ | ⟨hresult, -⟩ <;> rw [hresult] <;> simp
  · rw [Bool.not_eq_true] at hvalid
    obtain ⟨hpc, hwriter, hqueue⟩ : s.publish = .idle ∧ s.writer = _ ∧ s.queue = _ :=
      run_of_not_valid (s := start (openAll opens)) hvalid rfl steps
    refine ⟨fun value happended => ?_, [], fun hopen => ?_, ?_⟩
    · rw [hpc] at happended
      contradiction
    · rw [hwriter] at hopen ⊢
      exact hopenable.writer hopen
    · rw [hqueue, inFlight, hpc]
      rfl

end Session
end AetherStream.PersistentBroker
