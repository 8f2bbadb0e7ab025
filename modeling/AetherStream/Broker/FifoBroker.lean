import AetherStream.Basis.BoundedFifo
import AetherStream.Broker.BatchBroker

/-! `Broker` as its caller sees it: a bounded queue that counts what it answers. -/

namespace AetherStream.Broker
open Basis
variable {cap : Capacity} {α : Type*}

/-- The forwarding overload; its body is that of `try_publish`. -/
def tryEmplace (b : Broker cap α) (value : α) : Status × Broker cap α := b.tryPublish value

def resetMetrics (b : Broker cap α) : Broker cap α := { b with counters := b.counters.reset }

def isEmpty (b : Broker cap α) : Bool := b.queue.isEmpty

def sizeApprox (b : Broker cap α) : UInt64 := b.queue.sizeApprox

theorem tryPublish_cases {b : Broker cap α} (hvalid : b.valid = true) (hsettled : b.queue.Settled) (value : α) :
    b.queue.contents.length = cap.toNat ∧ b.tryPublish value =
        (⟨.full, "broker queue is full"⟩, { b with counters := b.counters.recordPublishFailedFull }) ∨
      b.queue.contents.length < cap.toNat ∧ ∃ queue : Ring cap α, queue.Settled ∧
        queue.contents = b.queue.contents ++ [some value] ∧
        b.tryPublish value = (.ok, { b with queue := queue, counters := b.counters.recordPublished }) := by
  rw [tryPublish, hvalid]
  rcases hsettled.tryEmplace value with ⟨hfull, heq⟩ | ⟨hroom, queue, heq, hsettled', hcontents⟩
  · rw [heq]
    exact Or.inl ⟨hfull, rfl⟩
  · rw [heq]
    exact Or.inr ⟨hroom, queue, hsettled', hcontents, rfl⟩

theorem tryConsume_cases {b : Broker cap α} (hvalid : b.valid = true) (hsettled : b.queue.Settled) :
    b.queue.contents = [] ∧ b.tryConsume =
        (⟨.empty, "broker queue is empty"⟩, none, { b with counters := b.counters.recordConsumeFailedEmpty }) ∨
      ∃ (value : Option α) (queue : Ring cap α), queue.Settled ∧ b.queue.contents = value :: queue.contents ∧
        b.tryConsume = (.ok, value, { b with queue := queue, counters := b.counters.recordConsumed }) := by
  rw [tryConsume, hvalid]
  rcases hsettled.tryPop with ⟨hempty, heq⟩ | ⟨value, queue, heq, hsettled', hcontents⟩
  · rw [heq]
    exact Or.inl ⟨hempty, rfl⟩
  · rw [heq]
    exact Or.inr ⟨value, queue, hsettled', hcontents, rfl⟩

inductive Call (α : Type*) where
  | tryPublish (value : α)
  | tryEmplace (value : α)
  | tryConsume
  | resetMetrics

inductive Answer (α : Type*) where
  | took (e : FifoEvent (Option α))
  | invalidPublish
  | invalidConsume
  | reset

namespace Answer

def ofPublish (value : α) (status : Status) : Answer α :=
  if status.isOk then .took (.pushed (some value))
  else if status.code = .full then .took .full
  else .invalidPublish

def ofConsume (status : Status) (out : Option α) : Answer α :=
  if status.isOk then .took (.popped out)
  else if status.code = .empty then .took .empty
  else .invalidConsume

def event : Answer α → Option (FifoEvent (Option α))
  | took e => some e
  | _ => none

def isPublished : Answer α → Bool
  | took (.pushed _) => true
  | _ => false

def isFull : Answer α → Bool
  | took .full => true
  | _ => false

def isConsumed : Answer α → Bool
  | took (.popped _) => true
  | _ => false

def isEmpty : Answer α → Bool
  | took .empty => true
  | _ => false

def isInvalidPublish : Answer α → Bool
  | invalidPublish => true
  | _ => false

def isInvalidConsume : Answer α → Bool
  | invalidConsume => true
  | _ => false

end Answer

def call (b : Broker cap α) : Call α → Answer α × Broker cap α
  | .tryPublish value => let (status, b) := b.tryPublish value; (.ofPublish value status, b)
  | .tryEmplace value => let (status, b) := b.tryEmplace value; (.ofPublish value status, b)
  | .tryConsume => let (status, out, b) := b.tryConsume; (.ofConsume status out, b)
  | .resetMetrics => (.reset, b.resetMetrics)

structure Usage (cap : Capacity) (α : Type*) where
  broker : Broker cap α
  answers : List (Answer α) := []

def sinceReset (answers : List (Answer α)) : List (Answer α) :=
  answers.foldl (fun recent a => match a with
    | .reset => []
    | a => recent ++ [a]) []

def countersOf (answers : List (Answer α)) : BrokerCounters where
  published := UInt64.ofNat (answers.countP Answer.isPublished)
  consumed := UInt64.ofNat (answers.countP Answer.isConsumed)
  publishFailedFull := UInt64.ofNat (answers.countP Answer.isFull)
  consumeFailedEmpty := UInt64.ofNat (answers.countP Answer.isEmpty)
  publishFailedInvalid := UInt64.ofNat (answers.countP Answer.isInvalidPublish)
  consumeFailedInvalid := UInt64.ofNat (answers.countP Answer.isInvalidConsume)

theorem sinceReset_snoc (answers : List (Answer α)) {a : Answer α} (ha : a ≠ .reset) :
    sinceReset (answers ++ [a]) = sinceReset answers ++ [a] := by
  rw [sinceReset, List.foldl_append]
  cases a with
  | reset => exact absurd rfl ha
  | _ => rfl

theorem sinceReset_reset (answers : List (Answer α)) : sinceReset (answers ++ [.reset]) = [] := by
  rw [sinceReset, List.foldl_append]
  rfl

theorem countersOf_snoc (answers : List (Answer α)) (a : Answer α) :
    countersOf (answers ++ [a]) =
      match a with
      | .took (.pushed _) => (countersOf answers).recordPublished
      | .took .full => (countersOf answers).recordPublishFailedFull
      | .took (.popped _) => (countersOf answers).recordConsumed
      | .took .empty => (countersOf answers).recordConsumeFailedEmpty
      | .invalidPublish => (countersOf answers).recordPublishFailedInvalid
      | .invalidConsume => (countersOf answers).recordConsumeFailedInvalid
      | .reset => countersOf answers := by
  simp only [countersOf, List.countP_append]
  rcases a with (_ | _ | _ | _) | _ | _ | _ <;>
    simp [List.countP_cons, Answer.isPublished, Answer.isFull, Answer.isConsumed, Answer.isEmpty,
      Answer.isInvalidPublish, Answer.isInvalidConsume, BrokerCounters.recordPublished,
      BrokerCounters.recordPublishFailedFull, BrokerCounters.recordConsumed, BrokerCounters.recordConsumeFailedEmpty,
      BrokerCounters.recordPublishFailedInvalid, BrokerCounters.recordConsumeFailedInvalid]

namespace Usage

def step (s : Usage cap α) (c : Call α) : Usage cap α :=
  let (answer, b) := s.broker.call c
  ⟨b, s.answers ++ [answer]⟩

def run (s : Usage cap α) (calls : List (Call α)) : Usage cap α := calls.foldl step s

structure Inv (status : Status) (s : Usage cap α) : Prop where
  configStatus : s.broker.configStatus = status
  settled : s.broker.queue.Settled
  takes : Takes (FifoNext cap.toNat) [] (s.answers.filterMap Answer.event) s.broker.queue.contents
  counters : s.broker.counters = countersOf (sinceReset s.answers)
  valid : ∀ a ∈ s.answers, (a.isInvalidPublish || a.isInvalidConsume) = true → status.isOk = false
  invalid : status.isOk = false → ∀ a ∈ s.answers, a.event = none

theorem inv_start (status : Status) : Inv status (⟨{ configStatus := status }, []⟩ : Usage cap α) where
  configStatus := rfl
  settled := Ring.settled_empty cap α
  takes := ((Ring.rests_empty cap α).contents_eq).symm
  counters := rfl
  valid := by simp
  invalid := by simp

section Steps
variable {status : Status} {s : Usage cap α} (h : s.Inv status)
include h

theorem Inv.snoc {a : Answer α} {b : Broker cap α} (hconfig : b.configStatus = s.broker.configStatus)
    (hsettled : b.queue.Settled)
    (htakes : Takes (FifoNext cap.toNat) s.broker.queue.contents a.event.toList b.queue.contents)
    (hcounters : b.counters = countersOf (sinceReset (s.answers ++ [a])))
    (hvalid : (a.isInvalidPublish || a.isInvalidConsume) = true → status.isOk = false)
    (hinvalid : status.isOk = false → a.event = none) : Inv status ⟨b, s.answers ++ [a]⟩ := by
  refine ⟨hconfig.trans h.configStatus, hsettled, ?_, hcounters, fun a' ha' => ?_, fun hbad a' ha' => ?_⟩
  · rw [List.filterMap_append]
    refine h.takes.append ?_
    cases ha : a.event <;> simpa [ha] using htakes
  · rcases List.mem_append.mp ha' with ha' | ha'
    · exact h.valid a' ha'
    · rwa [List.mem_singleton.mp ha']
  · rcases List.mem_append.mp ha' with ha' | ha'
    · exact h.invalid hbad a' ha'
    · rw [List.mem_singleton.mp ha']
      exact hinvalid hbad

theorem Inv.took (hok : status.isOk = true) {e : FifoEvent (Option α)} {queue : Ring cap α} (hsettled : queue.Settled)
    (hnext : FifoNext cap.toNat s.broker.queue.contents e queue.contents) {counters : BrokerCounters}
    (hcounters : counters = countersOf (sinceReset s.answers ++ [.took e])) :
    Inv status ⟨{ s.broker with queue := queue, counters := counters }, s.answers ++ [.took e]⟩ := by
  refine h.snoc rfl hsettled (takes_singleton hnext) ?_ (fun hbad => Bool.noConfusion hbad) fun hbad => ?_
  · rw [hcounters, sinceReset_snoc _ (by simp)]
  · rw [hok] at hbad
    contradiction

theorem Inv.tryPublish (hcode : status.isOk = false → status.code = .invalidArgument) (value : α) :
    (s.step (.tryPublish value)).Inv status := by
  have hcounters := h.counters
  simp only [step, call]
  cases hvalid : s.broker.valid with
  | true =>
    have hok : status.isOk = true := by rw [← h.configStatus]; exact hvalid
    rcases tryPublish_cases hvalid h.settled value with ⟨hfull, heq⟩ | ⟨hroom, queue, hsettled, hcontents, heq⟩
    · rw [heq]
      refine h.took hok h.settled (.full hfull) ?_
      rw [countersOf_snoc, hcounters]
    · rw [heq]
      refine h.took hok hsettled (hcontents ▸ .push _ hroom) ?_
      rw [countersOf_snoc, hcounters]
  | false =>
    have hbad : status.isOk = false := by rw [← h.configStatus]; exact hvalid
    have heq : s.broker.tryPublish value = (s.broker.configStatus,
        { s.broker with counters := s.broker.counters.recordPublishFailedInvalid }) := by
      rw [Broker.tryPublish, hvalid]
      rfl
    have hanswer : Answer.ofPublish value s.broker.configStatus = .invalidPublish := by
      simp [Answer.ofPublish, h.configStatus, hbad, hcode hbad]
    rw [heq]
    dsimp only
    rw [hanswer]
    refine h.snoc rfl h.settled rfl ?_ (fun _ => hbad) fun _ => rfl
    rw [sinceReset_snoc _ (by simp), countersOf_snoc, hcounters]

theorem Inv.tryConsume (hcode : status.isOk = false → status.code = .invalidArgument) :
    (s.step .tryConsume).Inv status := by
  have hcounters := h.counters
  simp only [step, call]
  cases hvalid : s.broker.valid with
  | true =>
    have hok : status.isOk = true := by rw [← h.configStatus]; exact hvalid
    rcases tryConsume_cases hvalid h.settled with ⟨hempty, heq⟩ | ⟨value, queue, hsettled, hcontents, heq⟩
    · rw [heq]
      refine h.took hok h.settled (hempty ▸ .empty) ?_
      rw [countersOf_snoc, hcounters]
    · rw [heq]
      refine h.took hok hsettled (hcontents ▸ .pop value) ?_
      rw [countersOf_snoc, hcounters]
  | false =>
    have hbad : status.isOk = false := by rw [← h.configStatus]; exact hvalid
    have heq : s.broker.tryConsume = (s.broker.configStatus, none,
        { s.broker with counters := s.broker.counters.recordConsumeFailedInvalid }) := by
      rw [Broker.tryConsume, hvalid]
      rfl
    have hanswer : Answer.ofConsume s.broker.configStatus (none : Option α) = .invalidConsume := by
      simp [Answer.ofConsume, h.configStatus, hbad, hcode hbad]
    rw [heq]
    dsimp only
    rw [hanswer]
    refine h.snoc rfl h.settled rfl ?_ (fun _ => hbad) fun _ => rfl
    rw [sinceReset_snoc _ (by simp), countersOf_snoc, hcounters]

theorem Inv.step (hcode : status.isOk = false → status.code = .invalidArgument) (c : Call α) :
    (s.step c).Inv status := by
  cases c with
  | tryPublish value => exact h.tryPublish hcode value
  | tryEmplace value => exact h.tryPublish hcode value
  | tryConsume => exact h.tryConsume hcode
  | resetMetrics =>
    refine h.snoc (a := .reset) rfl h.settled rfl ?_ (fun hbad => Bool.noConfusion hbad) fun _ => rfl
    rw [sinceReset_reset]
    rfl

theorem Inv.run (hcode : status.isOk = false → status.code = .invalidArgument) (calls : List (Call α)) :
    (s.run calls).Inv status := by
  refine List.foldlRecOn (motive := Inv status) calls Usage.step h ?_
  intro s h c _
  exact h.step hcode c

end Steps
end Usage

theorem validate_of_capacity {config : QueueConfig} (h : config.capacity = cap.size) : config.validate = .ok := by
  have hne : config.capacity ≠ 0 := by
    intro hzero
    have htwo := cap.two_le
    rw [← h, hzero] at htwo
    exact absurd htwo (by decide)
  have hpow : isPowerOfTwo config.capacity = true := by
    rw [isPowerOfTwo, Bool.and_eq_true_iff, bne_iff_ne, beq_iff_eq, h]
    exact ⟨h ▸ hne, cap.pow_two⟩
  simp [QueueConfig.validate, hne, hpow]

theorem validateQueueConfigForCapacity_cases (cap : Capacity) (config : QueueConfig) :
    config.capacity = cap.size ∧ (validateQueueConfigForCapacity config cap.size).isOk = true ∨
      config.capacity ≠ cap.size ∧ (validateQueueConfigForCapacity config cap.size).isOk = false ∧
        (validateQueueConfigForCapacity config cap.size).code = .invalidArgument := by
  by_cases h : config.capacity = cap.size
  · simp [validateQueueConfigForCapacity, validate_of_capacity h, h]
  · refine Or.inr ⟨h, ?_⟩
    unfold validateQueueConfigForCapacity QueueConfig.validate
    split_ifs with hzero hpow hok <;> first | exact ⟨rfl, rfl⟩ | contradiction

/-- Whatever is called on a broker of whatever configuration: if the configured capacity is the
broker's own, then the answers are a history of the bounded queue, and otherwise every publish
and consume is rejected; the queries tell the length of the queue, and the counters are those of
the answers since the last reset. -/
theorem answers_as_boundedQueue (config : QueueConfig) (calls : List (Call α)) :
    let s := Usage.run ⟨(ofConfig config : Broker cap α), []⟩ calls
    let contents := s.broker.queue.contents
    (s.broker.valid = true ↔ config.capacity = cap.size) ∧
    (s.broker.valid = true → ∀ a ∈ s.answers, ¬ (a.isInvalidPublish || a.isInvalidConsume) = true) ∧
    (s.broker.valid = false → (∀ a ∈ s.answers, a.event = none) ∧ contents = []) ∧
    Takes (FifoNext cap.toNat) [] (s.answers.filterMap Answer.event) contents ∧
    (s.broker.isEmpty = true ↔ contents = []) ∧
    (s.broker.isFull = true ↔ contents.length = cap.toNat) ∧
    s.broker.sizeApprox.toNat = contents.length ∧
    s.broker.counters = countersOf (sinceReset s.answers) := by
  intro s contents
  have hcases := validateQueueConfigForCapacity_cases cap config
  have hcode : (validateQueueConfigForCapacity config cap.size).isOk = false →
      (validateQueueConfigForCapacity config cap.size).code = .invalidArgument := by
    intro hbad
    rcases hcases with ⟨-, hok⟩ | ⟨-, -, hcode⟩
    · rw [hok] at hbad
      contradiction
    · exact hcode
  have h : s.Inv (validateQueueConfigForCapacity config cap.size) := (Usage.inv_start _).run hcode calls
  have hvalid : s.broker.valid = (validateQueueConfigForCapacity config cap.size).isOk := by
    rw [Broker.valid, h.configStatus]
  obtain ⟨accepted, popped, hrests⟩ := h.settled
  have hpopped := hrests.popped_le
  have hle := hrests.length_le
  have hlength : contents.length = accepted.length - popped := by
    rw [show contents = _ from hrests.contents_eq, List.length_map, List.length_drop]
  refine ⟨?_, fun hok a ha hbad => ?_, fun hbad => ?_, h.takes, ?_, ?_, ?_, h.counters⟩
  · rw [hvalid]
    rcases hcases with ⟨hcap, hok⟩ | ⟨hcap, hbad, -⟩
    · exact iff_of_true hok hcap
    · exact iff_of_false (by simp [hbad]) hcap
  · rw [hvalid, h.valid a ha hbad] at hok
    contradiction
  · rw [hvalid] at hbad
    have hnone := h.invalid hbad
    refine ⟨hnone, ?_⟩
    have htakes := h.takes
    rw [List.filterMap_eq_nil_iff.mpr hnone] at htakes
    exact (show [] = contents from htakes).symm
  · rw [← List.length_eq_zero_iff, hlength]
    have hiff : s.broker.isEmpty = true ↔ s.broker.queue.tail.current = s.broker.queue.head.current := by
      rw [Broker.isEmpty, Ring.isEmpty, beq_iff_eq, eq_comm]
    rw [hiff, hrests.empty_iff]
    omega
  · rw [hlength]
    have hiff : s.broker.isFull = true ↔ cap.size ≤ s.broker.queue.head.current - s.broker.queue.tail.current :=
      decide_eq_true_iff
    rw [hiff, hrests.full_iff]
    omega
  · exact (Ring.length_contents _).symm

end AetherStream.Broker
