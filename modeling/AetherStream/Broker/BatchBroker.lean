import AetherStream.Broker.Broker
import AetherStream.Queue.Sequential

/-! `BatchBroker`: a queue with calls for whole spans. A batch call does what single calls do
up to the first that fails, but for one counter. -/

namespace AetherStream

def BrokerCounters.reset (_ : BrokerCounters) : BrokerCounters := {}

structure BatchBroker (cap : Capacity) (α : Type*) where
  configStatus : Status := .ok
  queue : Ring cap α := .empty cap α
  counters : BrokerCounters := {}

namespace BatchBroker
variable {cap : Capacity} {α : Type*}

def ofConfig (config : QueueConfig) : BatchBroker cap α :=
  { configStatus := validateQueueConfigForCapacity config cap.size }

def valid (b : BatchBroker cap α) : Bool := b.configStatus.isOk

def resetMetrics (b : BatchBroker cap α) : BatchBroker cap α := { b with counters := b.counters.reset }

def tryPublish (b : BatchBroker cap α) (value : α) : Status × BatchBroker cap α :=
  if !b.valid then (b.configStatus, { b with counters := b.counters.recordPublishFailedInvalid })
  else match b.queue.tryEmplace value with
    | (false, queue) =>
      (⟨.full, "batch broker queue is full"⟩,
        { b with queue := queue, counters := b.counters.recordPublishFailedFull })
    | (true, queue) => (.ok, { b with queue := queue, counters := b.counters.recordPublished })

/-- `out` is the value of the object at which the parameter points; the second component is
its value after the call. -/
def tryConsume (b : BatchBroker cap α) (out : Option α) : Status × Option α × BatchBroker cap α :=
  if !b.valid then (b.configStatus, out, { b with counters := b.counters.recordConsumeFailedInvalid })
  else match b.queue.tryPop with
    | (none, queue) =>
      (⟨.empty, "batch broker queue is empty"⟩, out,
        { b with queue := queue, counters := b.counters.recordConsumeFailedEmpty })
    | (some value, queue) => (.ok, value, { b with queue := queue, counters := b.counters.recordConsumed })

def publishLoop (b : BatchBroker cap α) : List α → Nat → Nat × BatchBroker cap α
  | [], published => (published, b)
  | message :: messages, published =>
    match b.queue.tryEmplace message with
    | (false, queue) =>
      (published, { b with queue := queue, counters := b.counters.recordPublishFailedFull })
    | (true, queue) =>
      publishLoop { b with queue := queue, counters := b.counters.recordPublished } messages (published + 1)

def tryPublishBatch (b : BatchBroker cap α) (messages : List α) : Nat × BatchBroker cap α :=
  if messages.isEmpty then (0, b)
  else if !b.valid then (0, { b with counters := b.counters.recordPublishFailedInvalid })
  else b.publishLoop messages 0

def consumeLoop (b : BatchBroker cap α) : List (Option α) → Nat → Nat × List (Option α) × BatchBroker cap α
  | [], consumed => (consumed, [], b)
  | out :: outs, consumed =>
    match b.queue.tryPop with
    | (none, queue) => (consumed, out :: outs, { b with queue := queue })
    | (some value, queue) =>
      let (consumed, outs, b) :=
        consumeLoop { b with queue := queue, counters := b.counters.recordConsumed } outs (consumed + 1)
      (consumed, value :: outs, b)

def tryConsumeBatch (b : BatchBroker cap α) (outs : List (Option α)) : Nat × List (Option α) × BatchBroker cap α :=
  if outs.isEmpty then (0, outs, b)
  else if !b.valid then (0, outs, { b with counters := b.counters.recordConsumeFailedInvalid })
  else
    let (consumed, outs, b) := b.consumeLoop outs 0
    -- an empty queue is counted here and not where the loop breaks off
    if consumed = 0 then (consumed, outs, { b with counters := b.counters.recordConsumeFailedEmpty })
    else (consumed, outs, b)

def publishEach (b : BatchBroker cap α) : List α → Nat × BatchBroker cap α
  | [] => (0, b)
  | message :: messages =>
    match b.tryPublish message with
    | (status, b) =>
      if status.isOk then
        let (published, b) := publishEach b messages
        (published + 1, b)
      else (0, b)

def consumeEach (b : BatchBroker cap α) : List (Option α) → Nat × List (Option α) × BatchBroker cap α
  | [] => (0, [], b)
  | out :: outs =>
    match b.tryConsume out with
    | (status, out, b) =>
      if status.isOk then
        let (consumed, outs, b) := consumeEach b outs
        (consumed + 1, out :: outs, b)
      else (0, out :: outs, b)

/-- The one counter in which a batch may differ from single calls. -/
def withEmptyFailures (b : BatchBroker cap α) (n : UInt64) : BatchBroker cap α :=
  { b with counters := { b.counters with consumeFailedEmpty := n } }

section Invalid
variable {b : BatchBroker cap α} (h : b.valid = false)
include h

theorem tryPublish_of_not_valid (value : α) :
    b.tryPublish value = (b.configStatus, { b with counters := b.counters.recordPublishFailedInvalid }) := by
  rw [tryPublish, h]
  rfl

theorem tryConsume_of_not_valid (out : Option α) :
    b.tryConsume out = (b.configStatus, out, { b with counters := b.counters.recordConsumeFailedInvalid }) := by
  rw [tryConsume, h]
  rfl

end Invalid

section Valid
variable {b : BatchBroker cap α} (h : b.valid = true)
include h

theorem publishEach_cons_full {message : α} {queue : Ring cap α} (hpush : b.queue.tryEmplace message = (false, queue))
    (messages : List α) :
    b.publishEach (message :: messages) =
      (0, { b with queue := queue, counters := b.counters.recordPublishFailedFull }) := by
  rw [publishEach, tryPublish, h, hpush]
  rfl

theorem publishEach_cons_room {message : α} {queue : Ring cap α} (hpush : b.queue.tryEmplace message = (true, queue))
    (messages : List α) :
    let rest := publishEach { b with queue := queue, counters := b.counters.recordPublished } messages
    b.publishEach (message :: messages) = (rest.1 + 1, rest.2) := by
  rw [publishEach, tryPublish, h, hpush]
  rfl

theorem consumeEach_cons_empty {queue : Ring cap α} (hpop : b.queue.tryPop = (none, queue)) (out : Option α)
    (outs : List (Option α)) :
    b.consumeEach (out :: outs) =
      (0, out :: outs, { b with queue := queue, counters := b.counters.recordConsumeFailedEmpty }) := by
  rw [consumeEach, tryConsume, h, hpop]
  rfl

theorem consumeEach_cons_value {value : Option α} {queue : Ring cap α} (hpop : b.queue.tryPop = (some value, queue))
    (out : Option α) (outs : List (Option α)) :
    let rest := consumeEach { b with queue := queue, counters := b.counters.recordConsumed } outs
    b.consumeEach (out :: outs) = (rest.1 + 1, value :: rest.2.1, rest.2.2) := by
  rw [consumeEach, tryConsume, h, hpop]
  rfl

theorem publishLoop_eq (messages : List α) (published : Nat) :
    b.publishLoop messages published =
      (published + (b.publishEach messages).1, (b.publishEach messages).2) := by
  induction messages generalizing b published with
  | nil => rfl
  | cons message messages ih =>
    rcases hpush : b.queue.tryEmplace message with ⟨_ | _, queue⟩
    · rw [publishLoop, hpush, publishEach_cons_full h hpush]
      rfl
    · rw [publishLoop, hpush, publishEach_cons_room h hpush]
      have hvalid :
          ({ b with queue := queue, counters := b.counters.recordPublished } : BatchBroker cap α).valid = true := h
      dsimp only
      rw [ih hvalid, Nat.add_right_comm, Nat.add_assoc]

theorem consumeLoop_eq (outs : List (Option α)) (consumed : Nat) :
    b.consumeLoop outs consumed =
      (consumed + (b.consumeEach outs).1, (b.consumeEach outs).2.1,
        (b.consumeEach outs).2.2.withEmptyFailures b.counters.consumeFailedEmpty) := by
  induction outs generalizing b consumed with
  | nil => rfl
  | cons out outs ih =>
    rcases hpop : b.queue.tryPop with ⟨_ | value, queue⟩
    · rw [consumeLoop, hpop, consumeEach_cons_empty h hpop]
      rfl
    · rw [consumeLoop, hpop, consumeEach_cons_value h hpop]
      have hvalid :
          ({ b with queue := queue, counters := b.counters.recordConsumed } : BatchBroker cap α).valid = true := h
      dsimp only
      rw [ih hvalid, Nat.add_right_comm, Nat.add_assoc]
      rfl

end Valid

theorem tryPublishBatch_eq (b : BatchBroker cap α) (messages : List α) :
    b.tryPublishBatch messages = b.publishEach messages := by
  cases messages with
  | nil => rfl
  | cons message messages =>
    cases hvalid : b.valid with
    | true =>
      rw [tryPublishBatch, hvalid, publishLoop_eq hvalid]
      exact congrArg (·, _) (Nat.zero_add _)
    | false =>
      rw [tryPublishBatch, publishEach, tryPublish_of_not_valid hvalid, hvalid]
      exact (if_neg (by rw [show b.configStatus.isOk = false from hvalid]; decide)).symm

theorem tryConsumeBatch_eq (b : BatchBroker cap α) (outs : List (Option α)) :
    let each := b.consumeEach outs
    b.tryConsumeBatch outs = (each.1, each.2.1, each.2.2.withEmptyFailures
      (if each.1 = 0 then each.2.2.counters.consumeFailedEmpty else b.counters.consumeFailedEmpty)) := by
  cases outs with
  | nil => rfl
  | cons out outs =>
    cases hvalid : b.valid with
    | true =>
      rw [tryConsumeBatch, hvalid, consumeLoop_eq hvalid]
      rcases hpop : b.queue.tryPop with ⟨_ | value, queue⟩
      · rw [consumeEach_cons_empty hvalid hpop]
        rfl
      · rw [consumeEach_cons_value hvalid hpop]
        simp
    | false =>
      rw [tryConsumeBatch, consumeEach, tryConsume_of_not_valid hvalid, hvalid]
      dsimp only
      rw [show b.configStatus.isOk = false from hvalid]
      rfl

section Settled
variable {b : BatchBroker cap α} (h : b.queue.Settled)
include h

theorem publishEach_of_valid (hvalid : b.valid = true) (messages : List α) :
    let each := b.publishEach messages
    each.1 = min messages.length (cap.toNat - b.queue.contents.length) ∧
      each.2.queue.contents = b.queue.contents ++ (messages.take each.1).map some := by
  induction messages generalizing b with
  | nil => simp [publishEach]
  | cons message messages ih =>
    rcases h.tryEmplace message with ⟨hfull, hpush⟩ | ⟨hroom, queue, hpush, hsettled, hcontents⟩
    · rw [publishEach_cons_full hvalid hpush]
      simp [hfull]
    · rw [publishEach_cons_room hvalid hpush]
      obtain ⟨hcount, hrest⟩ :=
        ih (b := { b with queue := queue, counters := b.counters.recordPublished }) hsettled hvalid
      dsimp only at hcount hrest ⊢
      rw [hcontents] at hcount hrest
      refine ⟨?_, ?_⟩
      · rw [hcount, List.length_append, List.length_singleton, List.length_cons]
        omega
      · rw [hrest, List.take_succ_cons, List.map_cons, List.append_assoc]
        rfl

theorem consumeEach_of_valid (hvalid : b.valid = true) (outs : List (Option α)) :
    let each := b.consumeEach outs
    each.1 = min outs.length b.queue.contents.length ∧
      each.2.1 = b.queue.contents.take each.1 ++ outs.drop each.1 ∧
      each.2.2.queue.contents = b.queue.contents.drop each.1 := by
  induction outs generalizing b with
  | nil => simp [consumeEach]
  | cons out outs ih =>
    rcases h.tryPop with ⟨hempty, hpop⟩ | ⟨value, queue, hpop, hsettled, hcontents⟩
    · rw [consumeEach_cons_empty hvalid hpop]
      simp [hempty]
    · rw [consumeEach_cons_value hvalid hpop]
      obtain ⟨hcount, hfilled, hrest⟩ :=
        ih (b := { b with queue := queue, counters := b.counters.recordConsumed }) hsettled hvalid
      dsimp only at hcount hfilled hrest ⊢
      rw [hcontents]
      refine ⟨?_, ?_, hrest⟩
      · rw [hcount, List.length_cons, List.length_cons]
        omega
      · rw [hfilled, List.take_succ_cons, List.drop_succ_cons, List.cons_append]

end Settled

theorem publishEach_of_not_valid {b : BatchBroker cap α} (hvalid : b.valid = false) (messages : List α) :
    (b.publishEach messages).1 = 0 ∧ (b.publishEach messages).2.queue = b.queue := by
  cases messages with
  | nil => exact ⟨rfl, rfl⟩
  | cons message messages =>
    rw [publishEach, tryPublish_of_not_valid hvalid]
    dsimp only
    rw [show b.configStatus.isOk = false from hvalid]
    exact ⟨rfl, rfl⟩

theorem consumeEach_of_not_valid {b : BatchBroker cap α} (hvalid : b.valid = false) (outs : List (Option α)) :
    (b.consumeEach outs).1 = 0 ∧ (b.consumeEach outs).2.1 = outs ∧ (b.consumeEach outs).2.2.queue = b.queue := by
  cases outs with
  | nil => exact ⟨rfl, rfl, rfl⟩
  | cons out outs =>
    rw [consumeEach, tryConsume_of_not_valid hvalid]
    dsimp only
    rw [show b.configStatus.isOk = false from hvalid]
    exact ⟨rfl, rfl, rfl⟩

inductive Single (α : Type*) where
  | tryPublish (value : α)
  | tryConsume (out : Option α)
  | resetMetrics

inductive Call (α : Type*) where
  | single (c : Single α)
  | tryPublishBatch (messages : List α)
  | tryConsumeBatch (outs : List (Option α))

structure Effect (α : Type*) where
  accepted : List α := []
  delivered : List (Option α) := []
  deriving DecidableEq, Repr

def Effect.append {α : Type*} (e e' : Effect α) : Effect α :=
  ⟨e.accepted ++ e'.accepted, e.delivered ++ e'.delivered⟩

theorem Effect.append_assoc {α : Type*} (e₁ e₂ e₃ : Effect α) :
    (e₁.append e₂).append e₃ = e₁.append (e₂.append e₃) := by
  simp [append]

def single (b : BatchBroker cap α) : Single α → Effect α × BatchBroker cap α
  | .tryPublish value =>
    let (status, b) := b.tryPublish value
    ({ accepted := if status.isOk then [value] else [] }, b)
  | .tryConsume out =>
    let (status, out, b) := b.tryConsume out
    ({ delivered := if status.isOk then [out] else [] }, b)
  | .resetMetrics => ({}, b.resetMetrics)

def runSingles (b : BatchBroker cap α) : List (Single α) → Effect α × BatchBroker cap α
  | [] => ({}, b)
  | c :: cs =>
    let (effect, b) := b.single c
    let (effects, b) := runSingles b cs
    (effect.append effects, b)

def call (b : BatchBroker cap α) : Call α → Effect α × BatchBroker cap α
  | .single c => b.single c
  | .tryPublishBatch messages =>
    let (published, b) := b.tryPublishBatch messages
    ({ accepted := messages.take published }, b)
  | .tryConsumeBatch outs =>
    let (consumed, outs, b) := b.tryConsumeBatch outs
    ({ delivered := outs.take consumed }, b)

def run (b : BatchBroker cap α) : List (Call α) → Effect α × BatchBroker cap α
  | [] => ({}, b)
  | c :: cs =>
    let (effect, b) := b.call c
    let (effects, b) := run b cs
    (effect.append effects, b)

/-- The single calls that a call stands for: those that succeed and the first that fails. -/
def expand (b : BatchBroker cap α) : Call α → List (Single α)
  | .single c => [c]
  | .tryPublishBatch messages => (messages.take ((b.publishEach messages).1 + 1)).map .tryPublish
  | .tryConsumeBatch outs => (outs.take ((b.consumeEach outs).1 + 1)).map .tryConsume

def expansion (b : BatchBroker cap α) : List (Call α) → List (Single α)
  | [] => []
  | c :: cs => b.expand c ++ expansion (b.call c).2 cs

theorem runSingles_append (b : BatchBroker cap α) (cs ds : List (Single α)) :
    b.runSingles (cs ++ ds) =
      ((b.runSingles cs).1.append ((b.runSingles cs).2.runSingles ds).1, ((b.runSingles cs).2.runSingles ds).2) := by
  induction cs generalizing b with
  | nil => simp [runSingles, Effect.append]
  | cons c cs ih => simp only [List.cons_append, runSingles, ih, Effect.append_assoc]

theorem runSingles_tryPublish (b : BatchBroker cap α) (messages : List α) :
    b.runSingles ((messages.take ((b.publishEach messages).1 + 1)).map .tryPublish) =
      ({ accepted := messages.take (b.publishEach messages).1 }, (b.publishEach messages).2) := by
  induction messages generalizing b with
  | nil => rfl
  | cons message messages ih =>
    rw [publishEach]
    rcases hstep : b.tryPublish message with ⟨status, b'⟩
    dsimp only
    by_cases hok : status.isOk = true
    · simp only [if_pos hok, List.take_succ_cons, List.map_cons, runSingles, single, hstep, ih, Effect.append,
        List.singleton_append, List.append_nil]
    · simp only [if_neg hok, List.take_succ_cons, List.take_zero, List.map_cons, List.map_nil, runSingles, single,
        hstep, Effect.append, List.append_nil]

theorem runSingles_tryConsume (b : BatchBroker cap α) (outs : List (Option α)) :
    b.runSingles ((outs.take ((b.consumeEach outs).1 + 1)).map .tryConsume) =
      ({ delivered := (b.consumeEach outs).2.1.take (b.consumeEach outs).1 }, (b.consumeEach outs).2.2) := by
  induction outs generalizing b with
  | nil => rfl
  | cons out outs ih =>
    rw [consumeEach]
    rcases hstep : b.tryConsume out with ⟨status, value, b'⟩
    dsimp only
    by_cases hok : status.isOk = true
    · simp only [if_pos hok, List.take_succ_cons, List.map_cons, runSingles, single, hstep, ih, Effect.append,
        List.singleton_append, List.append_nil]
    · simp only [if_neg hok, List.take_succ_cons, List.take_zero, List.map_cons, List.map_nil, runSingles, single,
        hstep, Effect.append, List.append_nil]

theorem tryPublish_withEmptyFailures (b : BatchBroker cap α) (n : UInt64) (value : α) :
    (b.withEmptyFailures n).tryPublish value =
      ((b.tryPublish value).1, (b.tryPublish value).2.withEmptyFailures n) := by
  have hvalid : (b.withEmptyFailures n).valid = b.valid := rfl
  have hqueue : (b.withEmptyFailures n).queue = b.queue := rfl
  rw [tryPublish, tryPublish, hvalid, hqueue]
  cases b.valid
  · rfl
  · rcases b.queue.tryEmplace value with ⟨_ | _, queue⟩ <;> rfl

theorem tryConsume_withEmptyFailures (b : BatchBroker cap α) (n : UInt64) (out : Option α) :
    ∃ m, (b.withEmptyFailures n).tryConsume out =
      ((b.tryConsume out).1, (b.tryConsume out).2.1, (b.tryConsume out).2.2.withEmptyFailures m) := by
  have hvalid : (b.withEmptyFailures n).valid = b.valid := rfl
  have hqueue : (b.withEmptyFailures n).queue = b.queue := rfl
  rw [tryConsume, tryConsume, hvalid, hqueue]
  cases b.valid
  · exact ⟨n, rfl⟩
  · rcases b.queue.tryPop with ⟨_ | value, queue⟩
    · exact ⟨n + 1, rfl⟩
    · exact ⟨n, rfl⟩

theorem single_withEmptyFailures (b : BatchBroker cap α) (n : UInt64) (c : Single α) :
    ∃ m, (b.withEmptyFailures n).single c = ((b.single c).1, (b.single c).2.withEmptyFailures m) := by
  cases c with
  | tryPublish value => exact ⟨n, by rw [single, tryPublish_withEmptyFailures]; rfl⟩
  | tryConsume out =>
    obtain ⟨m, hstep⟩ := b.tryConsume_withEmptyFailures n out
    exact ⟨m, by rw [single, hstep]; rfl⟩
  | resetMetrics => exact ⟨0, rfl⟩

theorem runSingles_withEmptyFailures (b : BatchBroker cap α) (n : UInt64) (cs : List (Single α)) :
    ∃ m, (b.withEmptyFailures n).runSingles cs = ((b.runSingles cs).1, (b.runSingles cs).2.withEmptyFailures m) := by
  induction cs generalizing b n with
  | nil => exact ⟨n, rfl⟩
  | cons c cs ih =>
    obtain ⟨m, hstep⟩ := b.single_withEmptyFailures n c
    obtain ⟨k, hrun⟩ := ih (b.single c).2 m
    exact ⟨k, by simp only [runSingles, hstep, hrun]⟩

theorem runSingles_expand (b : BatchBroker cap α) (c : Call α) :
    ∃ n, b.runSingles (b.expand c) = ((b.call c).1, (b.call c).2.withEmptyFailures n) := by
  cases c with
  | single c =>
    refine ⟨(b.single c).2.counters.consumeFailedEmpty, ?_⟩
    simp [expand, runSingles, call, Effect.append]
    rfl
  | tryPublishBatch messages =>
    rw [expand, runSingles_tryPublish, call, tryPublishBatch_eq]
    exact ⟨(b.publishEach messages).2.counters.consumeFailedEmpty, rfl⟩
  | tryConsumeBatch outs =>
    rw [expand, runSingles_tryConsume, call, tryConsumeBatch_eq]
    exact ⟨(b.consumeEach outs).2.2.counters.consumeFailedEmpty, rfl⟩

theorem runSingles_expansion (b : BatchBroker cap α) (calls : List (Call α)) :
    ∃ n, b.runSingles (b.expansion calls) = ((b.run calls).1, (b.run calls).2.withEmptyFailures n) := by
  induction calls generalizing b with
  | nil => exact ⟨b.counters.consumeFailedEmpty, rfl⟩
  | cons c cs ih =>
    obtain ⟨n, hstep⟩ := b.runSingles_expand c
    obtain ⟨m, hrest⟩ := ih (b.call c).2
    -- the runs have parted in one counter, which no later call looks at
    obtain ⟨k, hrun⟩ := (b.call c).2.runSingles_withEmptyFailures n ((b.call c).2.expansion cs)
    refine ⟨k, ?_⟩
    rw [expansion, runSingles_append, hstep, hrun, hrest]
    rfl

theorem fifo_single {b : BatchBroker cap α} (h : b.queue.Settled) (c : Single α) :
    (b.single c).2.queue.Settled ∧
      b.queue.contents ++ (b.single c).1.accepted.map some =
        (b.single c).1.delivered ++ (b.single c).2.queue.contents := by
  have hstatus (hvalid : b.valid = false) : b.configStatus.isOk = false := hvalid
  cases c with
  | tryPublish value =>
    cases hvalid : b.valid with
    | false => simp [single, tryPublish_of_not_valid hvalid, hstatus hvalid, h]
    | true =>
      rcases h.tryEmplace value with ⟨-, hpush⟩ | ⟨-, queue, hpush, hsettled, hcontents⟩
      · rw [single, tryPublish, hvalid, hpush]
        exact ⟨h, List.append_nil _⟩
      · rw [single, tryPublish, hvalid, hpush]
        exact ⟨hsettled, hcontents.symm⟩
  | tryConsume out =>
    cases hvalid : b.valid with
    | false => simp [single, tryConsume_of_not_valid hvalid, hstatus hvalid, h]
    | true =>
      rcases h.tryPop with ⟨-, hpop⟩ | ⟨value, queue, hpop, hsettled, hcontents⟩
      · rw [single, tryConsume, hvalid, hpop]
        exact ⟨h, List.append_nil _⟩
      · rw [single, tryConsume, hvalid, hpop]
        exact ⟨hsettled, (List.append_nil _).trans hcontents⟩
  | resetMetrics => exact ⟨h, List.append_nil _⟩

theorem fifo_runSingles {b : BatchBroker cap α} (h : b.queue.Settled) (cs : List (Single α)) :
    (b.runSingles cs).2.queue.Settled ∧
      b.queue.contents ++ (b.runSingles cs).1.accepted.map some =
        (b.runSingles cs).1.delivered ++ (b.runSingles cs).2.queue.contents := by
  induction cs generalizing b with
  | nil => exact ⟨h, by simp [runSingles]⟩
  | cons c cs ih =>
    obtain ⟨hsettled, hstep⟩ := fifo_single h c
    obtain ⟨hsettled', hrest⟩ := ih hsettled
    refine ⟨hsettled', ?_⟩
    simp only [runSingles, Effect.append]
    rw [List.map_append, ← List.append_assoc, hstep, List.append_assoc, hrest, List.append_assoc]

theorem fifo_run {b : BatchBroker cap α} (h : b.queue.Settled) (calls : List (Call α)) :
    (b.run calls).2.queue.Settled ∧
      b.queue.contents ++ (b.run calls).1.accepted.map some =
        (b.run calls).1.delivered ++ (b.run calls).2.queue.contents := by
  obtain ⟨n, hrun⟩ := b.runSingles_expansion calls
  have hfifo := fifo_runSingles h (b.expansion calls)
  rw [hrun] at hfifo
  exact hfifo

def constructed : Option QueueConfig → BatchBroker cap α
  | none => {}
  | some config => ofConfig config

theorem settled_run (config : Option QueueConfig) (calls : List (Call α)) :
    ((constructed config : BatchBroker cap α).run calls).2.queue.Settled := by
  have hsettled : (constructed config : BatchBroker cap α).queue.Settled := by
    cases config <;> exact Ring.settled_empty cap α
  exact (fifo_run hsettled calls).1

/-- After any calls on a broker of any configuration, a batch does what single calls up to
the first failure do, accepts what there is room for and returns what there is. Every run
from there exchanges the same values as the single calls it stands for. -/
theorem batch_refines_single (config : Option QueueConfig) (calls : List (Call α)) :
    let b : BatchBroker cap α := ((constructed config).run calls).2
    let size := b.queue.sizeApprox.toNat
    (∀ messages,
      let batch := b.tryPublishBatch messages
      batch = b.publishEach messages ∧
        batch.1 = (if b.valid then min messages.length (cap.toNat - size) else 0) ∧
        batch.2.queue.contents = b.queue.contents ++ (messages.take batch.1).map some) ∧
    (∀ outs,
      let batch := b.tryConsumeBatch outs
      let each := b.consumeEach outs
      batch = (each.1, each.2.1, each.2.2.withEmptyFailures
          (if each.1 = 0 then each.2.2.counters.consumeFailedEmpty else b.counters.consumeFailedEmpty)) ∧
        batch.1 = (if b.valid then min outs.length size else 0) ∧
        batch.2.1 = b.queue.contents.take batch.1 ++ outs.drop batch.1 ∧
        batch.2.2.queue.contents = b.queue.contents.drop batch.1) ∧
    ∀ more,
      let mixed := b.run more
      let singles := b.runSingles (b.expansion more)
      singles.1 = mixed.1 ∧ (∃ n, singles.2 = mixed.2.withEmptyFailures n) ∧
        b.queue.contents ++ mixed.1.accepted.map some = mixed.1.delivered ++ mixed.2.queue.contents := by
  intro b size
  have hsettled : b.queue.Settled := settled_run config calls
  have hsize : b.queue.contents.length = size := b.queue.length_contents
  refine ⟨fun messages => ?_, fun outs => ?_, fun more => ?_⟩
  · dsimp only
    rw [tryPublishBatch_eq]
    refine ⟨rfl, ?_⟩
    cases hvalid : b.valid with
    | true =>
      rw [if_pos rfl, ← hsize]
      exact publishEach_of_valid hsettled hvalid messages
    | false =>
      obtain ⟨hcount, hqueue⟩ := publishEach_of_not_valid hvalid messages
      rw [hcount, hqueue]
      simp
  · have hbatch := b.tryConsumeBatch_eq outs
    dsimp only at hbatch ⊢
    rw [hbatch]
    refine ⟨rfl, ?_⟩
    cases hvalid : b.valid with
    | true =>
      rw [if_pos rfl, ← hsize]
      exact consumeEach_of_valid hsettled hvalid outs
    | false =>
      obtain ⟨hcount, hfilled, hqueue⟩ := consumeEach_of_not_valid hvalid outs
      dsimp only [withEmptyFailures]
      rw [hcount, hfilled, hqueue]
      simp
  · obtain ⟨n, hrun⟩ := b.runSingles_expansion more
    dsimp only
    rw [hrun]
    exact ⟨rfl, ⟨n, rfl⟩, (fifo_run hsettled more).2⟩

/-- Three messages for a queue of two: one is refused and counted, and the batch that empties
the queue does not count that it found it empty. -/
example :
    let b := (({} : BatchBroker .least Nat).tryPublishBatch [1, 2, 3]).2
    let (consumed, outs, b') := b.tryConsumeBatch [none, none, none]
    b.counters.publishFailedFull = 1 ∧ consumed = 2 ∧ outs = [some 1, some 2, none] ∧
      b'.counters.consumeFailedEmpty = 0 := by
  decide +kernel

end BatchBroker
end AetherStream
