import AetherStream.Broker.Broker
import AetherStream.Cli.Options
import AetherStream.Queue.FairTransfer

/-! `aether_bench`: `run` publishes and consumes `messages` payloads through a broker from two
threads, each of which tries again as long as the queue is full or empty. -/

namespace AetherStream.Cli
open Basis Transfer

def benchPayload (size : Nat) (i : UInt64) : List UInt8 := (i &&& 0xFF).toUInt8 :: List.replicate (size - 1) 0

/-- Each thread counts in its own members of the broker's `BrokerCounters`. -/
structure BenchProducer where
  i : UInt64 := 0
  fullRetries : UInt64 := 0
  counters : BrokerCounters := {}

structure BenchConsumer where
  i : UInt64 := 0
  emptyRetries : UInt64 := 0
  counters : BrokerCounters := {}

def bench (size : Nat) (messages : UInt64) : Transfer (List UInt8) BenchProducer BenchConsumer Unit where
  send p _ := if p.i < messages then some (benchPayload size p.i) else none
  sent p ok :=
    let (status, counters) := p.counters.afterPush ok
    if status.isOk then { p with i := p.i + 1, counters := counters }
    else if status.code = .full then { p with fullRetries := p.fullRetries + 1, counters := counters }
    else { p with counters := counters }
  more c _ := c.i < messages
  received c result :=
    let (status, counters) := c.counters.afterPop result.isSome
    if status.isOk then ({ c with i := c.i + 1, counters := counters }, none)
    else if status.code = .empty then ({ c with emptyRetries := c.emptyRetries + 1, counters := counters }, none)
    else ({ c with counters := counters }, none)

abbrev BenchState (cap : Capacity) := State cap (List UInt8) BenchProducer BenchConsumer Unit

def BenchState.start (cap : Capacity) : BenchState cap := State.start cap (List UInt8) () {} {}

def BenchState.metrics {cap : Capacity} (s : BenchState cap) : BrokerCounters where
  published := s.sender.counters.published
  publishFailedFull := s.sender.counters.publishFailedFull
  consumed := s.receiver.counters.consumed
  consumeFailedEmpty := s.receiver.counters.consumeFailedEmpty

/-- What `main` writes to its output and to the result file; the two `double`s are printed as given. -/
def BenchState.report {cap : Capacity} (s : BenchState cap) (options : BenchOptions) (seconds perSecond : String) :
    List String :=
  ["Aether-Stream CLI demo benchmark (not official performance data)\n",
    "messages: " ++ toString options.messages ++ "\n",
    "payload size: " ++ toString options.payloadSize ++ "\n",
    "capacity: " ++ toString options.capacity ++ "\n",
    "elapsed seconds: " ++ seconds ++ "\n",
    "messages/sec: " ++ perSecond ++ "\n",
    "producer full retries: " ++ toString s.sender.fullRetries ++ "\n",
    "consumer empty retries: " ++ toString s.receiver.emptyRetries ++ "\n",
    "metrics.published: " ++ toString s.metrics.published ++ "\n",
    "metrics.consumed: " ++ toString s.metrics.consumed ++ "\n",
    "metrics.publish_failed_full: " ++ toString s.metrics.publishFailedFull ++ "\n",
    "metrics.consume_failed_empty: " ++ toString s.metrics.consumeFailedEmpty ++ "\n"]

def benchSpec (size : Nat) (messages : UInt64) : (bench size messages).Spec where
  value n := benchPayload size (UInt64.ofNat n)
  total := messages.toNat
  flag := ()
  Sent n p := p.i = UInt64.ofNat n ∧
    p.counters = { published := UInt64.ofNat n, publishFailedFull := p.fullRetries }
  Received n c := c.i = UInt64.ofNat n ∧
    c.counters = { consumed := UInt64.ofNat n, consumeFailedEmpty := c.emptyRetries }
  send_eq := by
    intro n p ⟨hi, _⟩ hle
    simp [bench, hi, ModularCounter.ofNat_lt_iff hle]
  sent := by
    intro n p ok ⟨hi, hcounters⟩ _
    cases ok with
    | true =>
      simp [bench, hi, hcounters, Status.isOk, Status.ok, BrokerCounters.recordPublished]
    | false =>
      simp [bench, hi, hcounters, Status.isOk, BrokerCounters.recordPublishFailedFull]
  more_eq := by
    intro n c ⟨hi, _⟩ hle
    simp [bench, hi, ModularCounter.ofNat_lt_iff hle]
  received := by
    intro n c ⟨hi, hcounters⟩ _
    simp [bench, hi, hcounters, Status.isOk, Status.ok, BrokerCounters.recordConsumed]
  received_empty := by
    intro n c ⟨hi, hcounters⟩
    simp [bench, hi, hcounters, Status.isOk, BrokerCounters.recordConsumeFailedEmpty]

theorem inv_bench (cap : Capacity) (size : Nat) (messages : UInt64) :
    (benchSpec size messages).Inv (BenchState.start cap) :=
  (benchSpec size messages).inv_start ⟨rfl, rfl⟩ ⟨rfl, rfl⟩

theorem metrics_of_finished {cap : Capacity} {size : Nat} {messages : UInt64} {s : BenchState cap}
    (h : (benchSpec size messages).Inv s) (hdone : s.Finished) :
    s.metrics =
      { published := messages
        consumed := messages
        publishFailedFull := s.sender.fullRetries
        consumeFailedEmpty := s.receiver.emptyRetries } := by
  obtain ⟨-, -, -, ⟨-, hsent⟩, -, hreceived⟩ := h.finished hdone
  have hall : UInt64.ofNat (benchSpec size messages).total = messages := UInt64.ofNat_toNat ..
  rw [hall] at hsent hreceived
  rw [BenchState.metrics, hsent, hreceived]

/-- The payloads arrive in the order in which they were published. Once both threads have ended,
both counts of the report are the number of messages, and the broker has counted as many full and
empty queues as the threads have. Every fair schedule with loads of the newest stores gets there. -/
theorem bench_counts (cap : Capacity) (options : BenchOptions) (seconds perSecond : String) :
    let run := bench options.payloadSize.toNat options.messages
    (∀ steps, let s : BenchState cap := run.run (BenchState.start cap) steps
      s.queue.consumer.returned <+: (List.range options.messages.toNat).map
          (fun n => some (benchPayload options.payloadSize.toNat (UInt64.ofNat n))) ∧
        (s.Finished → s.queue.consumer.returned.length = options.messages.toNat ∧
          (s.report options seconds perSecond).drop 8 =
            ["metrics.published: " ++ toString options.messages ++ "\n",
              "metrics.consumed: " ++ toString options.messages ++ "\n",
              "metrics.publish_failed_full: " ++ toString s.sender.fullRetries ++ "\n",
              "metrics.consume_failed_empty: " ++ toString s.receiver.emptyRetries ++ "\n"])) ∧
    ∀ schedule : Nat → Thread, Fair schedule → ∃ n, (stateAt run.turn (BenchState.start cap) schedule n).Finished := by
  intro run
  have hstart : (benchSpec options.payloadSize.toNat options.messages).Inv (BenchState.start cap) := inv_bench cap _ _
  refine ⟨fun steps => ?_, fun schedule hfair => ?_⟩
  · intro s
    have h : (benchSpec options.payloadSize.toNat options.messages).Inv s := hstart.run steps
    refine ⟨h.returned_prefix, fun hdone => ⟨(h.finished hdone).2.2.1, ?_⟩⟩
    rw [BenchState.report, metrics_of_finished h hdone]
    rfl
  · obtain ⟨n, -, hdone⟩ := hstart.eventually_finished hfair
    exact ⟨n, hdone⟩

end AetherStream.Cli
