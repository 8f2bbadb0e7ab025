import AetherStream.Broker.BatchBroker
import AetherStream.Queue.Follows

/-! `BatchBroker` between two threads, one of which publishes batches and the other of which
consumes into spans. A call gives up at the first message that the queue has no room for, or at
the first element of its span that the queue has no value for. -/

namespace AetherStream.BatchBroker
open Basis Transfer

/-- `finished` are the calls that have returned, each with its result; `call` is the span of the
one in progress, which is empty if there is none, and `calls` are those still to be made. -/
structure Publisher (α : Type*) where
  finished : List (List α × Nat) := []
  call : List α := []
  published : Nat := 0
  calls : List (List α) := []
  counters : BrokerCounters := {}

structure Subscriber (α : Type*) where
  finished : List (Nat × List (Option α)) := []
  room : Nat := 0
  got : List (Option α) := []
  calls : List Nat := []
  counters : BrokerCounters := {}

variable {cap : Capacity} {α : Type*}

/-- A call with an empty span returns before it looks at anything. -/
def Publisher.enter (finished : List (List α × Nat)) (counters : BrokerCounters) : List (List α) → Publisher α
  | [] => { finished := finished, counters := counters }
  | call :: calls =>
    if call.isEmpty then enter (finished ++ [(call, 0)]) counters calls
    else { finished := finished, call := call, calls := calls, counters := counters }

def Subscriber.enter (finished : List (Nat × List (Option α))) (counters : BrokerCounters) : List Nat → Subscriber α
  | [] => { finished := finished, counters := counters }
  | room :: calls =>
    if room = 0 then enter (finished ++ [(room, [])]) counters calls
    else { finished := finished, room := room, calls := calls, counters := counters }

def Publisher.returning (p : Publisher α) : Publisher α :=
  enter (p.finished ++ [(p.call, p.published)]) p.counters p.calls

def Subscriber.returning (c : Subscriber α) : Subscriber α :=
  -- `if (consumed == 0)`
  let counters := if c.got.isEmpty then c.counters.recordConsumeFailedEmpty else c.counters
  enter (c.finished ++ [(c.room, c.got)]) counters c.calls

def batches (α : Type*) : Transfer α (Publisher α) (Subscriber α) Unit where
  send p _ := p.call[p.published]?
  sent p ok :=
    if !ok then { p with counters := p.counters.recordPublishFailedFull }.returning
    else
      let p := { p with published := p.published + 1, counters := p.counters.recordPublished }
      if p.published < p.call.length then p else p.returning
  more c _ := c.got.length < c.room
  received c result :=
    match result with
    | none => (c.returning, none)
    | some value =>
      let c := { c with got := c.got ++ [value], counters := c.counters.recordConsumed }
      (if c.got.length < c.room then c else c.returning, none)

abbrev BatchState (cap : Capacity) (α : Type*) := State cap α (Publisher α) (Subscriber α) Unit

def BatchState.start (cap : Capacity) (calls : List (List α)) (spans : List Nat) : BatchState cap α :=
  State.start cap α () (.enter [] {} calls) (.enter [] {} spans)

namespace Publisher

def values (p : Publisher α) : List α :=
  p.finished.flatMap (fun call => call.1.take call.2) ++ p.call.take p.published

def cutShort (call : List α × Nat) : Bool := call.2 < call.1.length

structure Sent (calls : List (List α)) (values : List α) (p : Publisher α) : Prop where
  calls_eq : p.finished.map Prod.fst ++ (if p.call = [] then [] else [p.call]) ++ p.calls = calls
  idle : p.call = [] → p.calls = []
  busy : p.call ≠ [] → p.published < p.call.length
  results : ∀ call ∈ p.finished, call.2 ≤ call.1.length
  values_eq : p.values = values
  counters_eq : p.counters =
    { published := UInt64.ofNat values.length, publishFailedFull := UInt64.ofNat (p.finished.countP cutShort) }

structure Counted (finished : List (List α × Nat)) (counters : BrokerCounters) (values : List α) : Prop where
  results : ∀ call ∈ finished, call.2 ≤ call.1.length
  values_eq : finished.flatMap (fun call => call.1.take call.2) = values
  counters_eq : counters =
    { published := UInt64.ofNat values.length, publishFailedFull := UInt64.ofNat (finished.countP cutShort) }

theorem Counted.empty_call {finished : List (List α × Nat)} {counters : BrokerCounters} {values : List α}
    (h : Counted finished counters values) : Counted (finished ++ [([], 0)]) counters values := by
  refine ⟨fun call hcall => ?_, ?_, ?_⟩
  · rcases List.mem_append.mp hcall with hcall | hcall
    · exact h.results call hcall
    · rw [List.mem_singleton.mp hcall]
      exact le_rfl
  · simpa using h.values_eq
  · simpa [List.countP_append, cutShort] using h.counters_eq

theorem sent_enter {finished : List (List α × Nat)} {counters : BrokerCounters} {values : List α}
    (h : Counted finished counters values) (calls : List (List α)) :
    Sent (finished.map Prod.fst ++ calls) values (enter finished counters calls) := by
  induction calls generalizing finished with
  | nil =>
    refine ⟨?_, fun _ => rfl, fun hne => absurd rfl hne, h.results, ?_, h.counters_eq⟩
    · simp [enter]
    · simp [enter, Publisher.values, h.values_eq]
  | cons call calls ih =>
    rw [enter]
    split_ifs with hempty
    · obtain rfl : call = [] := List.isEmpty_iff.mp hempty
      have hnext := ih h.empty_call
      rwa [List.map_append, List.append_assoc] at hnext
    · have hne : call ≠ [] := fun hnil => hempty (List.isEmpty_iff.mpr hnil)
      refine ⟨?_, fun hnil => absurd hnil hne, fun _ => List.length_pos_iff.mpr hne, h.results, ?_, h.counters_eq⟩
      · simp [hne]
      · simp [Publisher.values, h.values_eq]

theorem sent_returning {calls : List (List α)} {values : List α} {p : Publisher α}
    (hcalls : p.finished.map Prod.fst ++ [p.call] ++ p.calls = calls)
    (hresults : ∀ call ∈ p.finished, call.2 ≤ call.1.length) (hle : p.published ≤ p.call.length)
    (hvalues : p.values = values)
    (hcounters : p.counters =
      { published := UInt64.ofNat values.length
        publishFailedFull := UInt64.ofNat ((p.finished ++ [(p.call, p.published)]).countP cutShort) }) :
    Sent calls values p.returning := by
  have hcounted : Counted (p.finished ++ [(p.call, p.published)]) p.counters values := by
    refine ⟨fun call hcall => ?_, ?_, hcounters⟩
    · rcases List.mem_append.mp hcall with hcall | hcall
      · exact hresults call hcall
      · rw [List.mem_singleton.mp hcall]
        exact hle
    · rw [List.flatMap_append, List.flatMap_singleton]
      exact hvalues
  have hnext := sent_enter hcounted p.calls
  rwa [List.map_append, List.map_singleton, hcalls] at hnext

theorem Sent.step {calls : List (List α)} {values : List α} {p : Publisher α} (h : Sent calls values p) {v : α}
    (hsend : p.call[p.published]? = some v) (ok : Bool) :
    Sent calls (values ++ if ok then [v] else []) ((batches α).sent p ok) := by
  obtain ⟨hlt, hv⟩ := List.getElem?_eq_some_iff.mp hsend
  have hne : p.call ≠ [] := List.ne_nil_of_length_pos (by omega)
  have hcalls := h.calls_eq
  rw [if_neg hne] at hcalls
  cases ok with
  | false =>
    simp only [batches, Bool.not_false, if_true, Bool.false_eq_true, if_false, List.append_nil]
    refine sent_returning hcalls h.results hlt.le h.values_eq ?_
    simp only [h.counters_eq, BrokerCounters.recordPublishFailedFull, List.countP_append, List.countP_singleton,
      cutShort, hlt, decide_true, if_true, ModularCounter.ofNat_succ]
  | true =>
    simp only [batches, Bool.not_true, if_true, Bool.false_eq_true, if_false]
    have hvalues : p.finished.flatMap (fun call => call.1.take call.2) ++ p.call.take (p.published + 1) =
        values ++ [v] := by
      rw [List.take_add_one, hsend, ← List.append_assoc]
      exact congrArg (· ++ [v]) h.values_eq
    have hcounters : p.counters.recordPublished =
        { published := UInt64.ofNat (values ++ [v]).length
          publishFailedFull := UInt64.ofNat (p.finished.countP cutShort) } := by
      rw [h.counters_eq, List.length_append, List.length_singleton, ← ModularCounter.ofNat_succ]
      rfl
    split_ifs with hmore
    · exact ⟨by simpa [hne] using hcalls, fun hnil => absurd hnil hne, fun _ => hmore, h.results, hvalues, hcounters⟩
    · refine sent_returning hcalls h.results hlt hvalues ?_
      have hwhole : cutShort (p.call, p.published + 1) = false := by simpa [cutShort] using hmore
      simpa [List.countP_append, hwhole] using hcounters

end Publisher

namespace Subscriber

def values (c : Subscriber α) : List (Option α) := c.finished.flatMap Prod.snd ++ c.got

def foundEmpty (call : Nat × List (Option α)) : Bool := call.1 != 0 && call.2.isEmpty

structure Received (spans : List Nat) (values : List (Option α)) (c : Subscriber α) : Prop where
  spans_eq : c.finished.map Prod.fst ++ (if c.room = 0 then [] else [c.room]) ++ c.calls = spans
  idle : c.room = 0 → c.calls = []
  busy : c.room ≠ 0 → c.got.length < c.room
  results : ∀ call ∈ c.finished, call.2.length ≤ call.1
  values_eq : c.values = values
  counters_eq : c.counters =
    { consumed := UInt64.ofNat values.length, consumeFailedEmpty := UInt64.ofNat (c.finished.countP foundEmpty) }

structure Counted (finished : List (Nat × List (Option α))) (counters : BrokerCounters) (values : List (Option α)) :
    Prop where
  results : ∀ call ∈ finished, call.2.length ≤ call.1
  values_eq : finished.flatMap Prod.snd = values
  counters_eq : counters =
    { consumed := UInt64.ofNat values.length, consumeFailedEmpty := UInt64.ofNat (finished.countP foundEmpty) }

theorem Counted.empty_span {finished : List (Nat × List (Option α))} {counters : BrokerCounters}
    {values : List (Option α)} (h : Counted finished counters values) :
    Counted (finished ++ [(0, [])]) counters values := by
  refine ⟨fun call hcall => ?_, ?_, ?_⟩
  · rcases List.mem_append.mp hcall with hcall | hcall
    · exact h.results call hcall
    · rw [List.mem_singleton.mp hcall]
      exact le_rfl
  · simpa using h.values_eq
  · simpa [List.countP_append, foundEmpty] using h.counters_eq

theorem received_enter {finished : List (Nat × List (Option α))} {counters : BrokerCounters} {values : List (Option α)}
    (h : Counted finished counters values) (spans : List Nat) :
    Received (finished.map Prod.fst ++ spans) values (enter finished counters spans) := by
  induction spans generalizing finished with
  | nil =>
    refine ⟨?_, fun _ => rfl, fun hne => absurd rfl hne, h.results, ?_, h.counters_eq⟩
    · simp [enter]
    · simp [enter, Subscriber.values, h.values_eq]
  | cons room spans ih =>
    rw [enter]
    split_ifs with hzero
    · subst hzero
      have hnext := ih h.empty_span
      rwa [List.map_append, List.append_assoc] at hnext
    · refine ⟨?_, fun hnil => absurd hnil hzero, fun _ => Nat.pos_of_ne_zero hzero, h.results, ?_, h.counters_eq⟩
      · simp [hzero]
      · simp [Subscriber.values, h.values_eq]

theorem received_returning {spans : List Nat} {values : List (Option α)} {c : Subscriber α} (hroom : c.room ≠ 0)
    (hspans : c.finished.map Prod.fst ++ [c.room] ++ c.calls = spans)
    (hresults : ∀ call ∈ c.finished, call.2.length ≤ call.1) (hle : c.got.length ≤ c.room)
    (hvalues : c.values = values) (hcounters : c.counters =
      { consumed := UInt64.ofNat values.length, consumeFailedEmpty := UInt64.ofNat (c.finished.countP foundEmpty) }) :
    Received spans values c.returning := by
  have hcounted : Counted (c.finished ++ [(c.room, c.got)])
      (if c.got.isEmpty then c.counters.recordConsumeFailedEmpty else c.counters) values := by
    refine ⟨fun call hcall => ?_, ?_, ?_⟩
    · rcases List.mem_append.mp hcall with hcall | hcall
      · exact hresults call hcall
      · rw [List.mem_singleton.mp hcall]
        exact hle
    · rw [List.flatMap_append, List.flatMap_singleton]
      exact hvalues
    · have hfound : foundEmpty (c.room, c.got) = c.got.isEmpty := by simp [foundEmpty, hroom]
      rw [List.countP_append, List.countP_singleton, hfound]
      split_ifs
      · rw [← ModularCounter.ofNat_succ, hcounters]
        rfl
      · exact hcounters
  have hnext := received_enter hcounted c.calls
  rwa [List.map_append, List.map_singleton, hspans] at hnext

theorem Received.step {spans : List Nat} {values : List (Option α)} {c : Subscriber α} (h : Received spans values c)
    (hmore : c.got.length < c.room) (result : Option (Option α)) :
    Received spans (values ++ result.toList) ((batches α).received c result).1 := by
  have hroom : c.room ≠ 0 := by omega
  have hspans := h.spans_eq
  rw [if_neg hroom] at hspans
  cases result with
  | none =>
    rw [Option.toList_none, List.append_nil]
    exact received_returning hroom hspans h.results hmore.le h.values_eq h.counters_eq
  | some value =>
    have hvalues : c.finished.flatMap Prod.snd ++ (c.got ++ [value]) = values ++ [value] := by
      rw [← List.append_assoc]
      exact congrArg (· ++ [value]) h.values_eq
    have hcounters : c.counters.recordConsumed =
        { consumed := UInt64.ofNat (values ++ [value]).length
          consumeFailedEmpty := UInt64.ofNat (c.finished.countP foundEmpty) } := by
      rw [h.counters_eq, List.length_append, List.length_singleton, ← ModularCounter.ofNat_succ]
      rfl
    have hle : (c.got ++ [value]).length ≤ c.room := by
      rw [List.length_append]
      exact hmore
    simp only [batches, Option.toList_some]
    split_ifs with hleft
    · exact ⟨by simpa [hroom] using hspans, fun hzero => absurd hzero hroom, fun _ => hleft, h.results, hvalues,
        hcounters⟩
    · exact received_returning hroom hspans h.results hle hvalues hcounters

end Subscriber

end AetherStream.BatchBroker
