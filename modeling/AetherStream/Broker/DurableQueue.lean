import AetherStream.Basis.LoggedFifo
import AetherStream.Broker.Capacity
import AetherStream.Broker.CrashRecovery
import AetherStream.Queue.Linearizable

/-! `PersistentBroker` against one specification: a bounded queue with a bounded log of all that
was pushed. What its two threads are told is a history of that queue, and what a new process
recovers is its log. -/

namespace AetherStream.PersistentBroker
open Basis Wal
variable {cap : Capacity} {α : Type*}

namespace Session

def event (value : Option α) : StatusCode → Option (LoggedEvent (Option α))
  | .ok => some (.queue (.pushed value))
  | .full => some (.queue .full)
  | .outOfSpace => some .logFull
  | .ioError => some .notLasting
  | _ => none

def replyCode : LoggedEvent (Option α) → Option StatusCode
  | .queue (.pushed _) => some .ok
  | .queue .full => some .full
  | .logFull => some .outOfSpace
  | .notLasting => some .ioError
  | .queue _ => none

variable [TriviallyCopyable α]

def publishReturns (s : Session cap α) (a : PublishStep α) : List (LoggedEvent (Option α)) :=
  ((s.publishStep a).replies.drop s.replies.length).filterMap fun status => event s.publish.value status.code

def returns (s : Session cap α) : SessionStep α → List (LoggedEvent (Option α))
  | .producer a => s.publishReturns a
  | .consumer (.moveThrows _) => []
  | .consumer a => if !s.valid then [] else (s.queue.ring.popReturns a s.queue.consumer).map .queue

def history (s : Session cap α) (steps : List (SessionStep α)) : List (LoggedEvent (Option α)) :=
  emitted step returns s steps

def upToDate (s : Session cap α) : SessionStep α → Bool
  | .producer (.loadTail k) => k = s.queue.ring.tail.stores.length
  | .producer _ => true
  | .consumer a => a.upToDate s.queue.ring

def reliableReturns (s : Session cap α) (a : SessionStep α) : List (LoggedEvent (Option α)) :=
  (s.returns a).filter (LoggedEvent.reliable (s.upToDate a))

/-- The same without the calls that were refused on an old counter. -/
def reliableHistory (s : Session cap α) (steps : List (SessionStep α)) : List (LoggedEvent (Option α)) :=
  emitted step reliableReturns s steps

structure Refines (s : Session cap α) (fileSize : UInt64) (q : DelayedFifo (Option α)) : Prop where
  logged : ∃ failed lost, s.Logged failed lost
  fileSize : s.writer.file.size = fileSize
  payload : (TriviallyCopyable.size α).toNat < 2 ^ 32
  isMatch : Matches s.queue.consumer s.queue.producer.accepted s.queue.producer.tailView q

variable {s : Session cap α} {failed : List α} {lost : Option α} {fileSize : UInt64} {q : DelayedFifo (Option α)}
  {fresh : Prop}

theorem publishReturns_of_same {a : PublishStep α} {s' : Session cap α} (hstep : s.publishStep a = s')
    (h : s'.replies = s.replies) : s.publishReturns a = [] := by
  rw [publishReturns, hstep, h, List.drop_length]
  rfl

theorem publishReturns_of_reply {a : PublishStep α} {s' : Session cap α} (hstep : s.publishStep a = s')
    {status : Status} (h : s'.replies = s.replies ++ [status]) :
    s.publishReturns a = (event s.publish.value status.code).toList := by
  rw [publishReturns, hstep, h, List.drop_left, List.filterMap_cons]
  cases event s.publish.value status.code <;> rfl

theorem publishStep_append {value : α} {flags : UInt32} (hpc : s.publish = .notFull value flags) {clock : UInt64}
    {msyncOk : Bool} {status : Status} {writer : WalWriter}
    (happend : s.writer.append (messageView value flags) clock msyncOk = (status, writer)) :
    s.publishStep (.append clock msyncOk) =
      if !status.isOk then { s with writer := writer }.returning status
      else { s with writer := writer, publish := .appended value } := by
  simp only [publishStep, hpc, happend]

theorem Logged.length_le (h : s.Logged failed lost) :
    s.queue.producer.accepted.length + s.inFlight.length ≤ recordCapacity α s.writer.file.size := by
  have hoffset := h.logs.toNat_currentOffset
  obtain ⟨records, -, -, hserving, -⟩ := h.logs
  have hsum := hserving.writer.offset_add_rest
  rw [MmapFile.length_bytes hserving.writer.valid] at hsum
  rw [hoffset, List.length_append] at hsum
  rw [recordCapacity, Nat.le_div_iff_mul_le (by omega)]
  exact Nat.le.intro hsum

def Simulates (s s' : Session cap α) (fresh : Prop) (q : DelayedFifo (Option α))
    (returned : List (LoggedEvent (Option α))) : Prop :=
  ∃ q', Takes (DelayedFifo.LoggedNext fresh cap.toNat (recordCapacity α s.writer.file.size)) q returned q' ∧
    Matches s'.queue.consumer s'.queue.producer.accepted s'.queue.producer.tailView q' ∧
    s'.replies.map Status.code = s.replies.map Status.code ++ returned.filterMap replyCode

section Publish
variable {s' : Session cap α}
  (hmatch : Matches s.queue.consumer s.queue.producer.accepted s.queue.producer.tailView q)
include hmatch

theorem simulates_silent (hqueue : s'.queue = s.queue) (hreplies : s'.replies = s.replies) :
    s.Simulates s' fresh q [] := by
  refine ⟨q, rfl, hqueue ▸ hmatch, ?_⟩
  rw [hreplies]
  exact (List.append_nil _).symm

theorem simulates_quiet {a : PublishStep α} (hqueue : (s.publishStep a).queue = s.queue)
    (hreplies : (s.publishStep a).replies = s.replies) :
    s.Simulates (s.publishStep a) fresh q (s.publishReturns a) := by
  rw [publishReturns_of_same rfl hreplies]
  exact simulates_silent hmatch hqueue hreplies

theorem simulates_refused {status : Status} {e : LoggedEvent (Option α)} {writer : WalWriter}
    (hcode : replyCode e = some status.code)
    (hnext : DelayedFifo.LoggedNext fresh cap.toNat (recordCapacity α s.writer.file.size) q e
      { q with takenSeen := s.queue.producer.tailView }) :
    s.Simulates ({ s with writer := writer }.returning status) fresh q [e] := by
  refine ⟨_, takes_singleton hnext, ⟨hmatch.values, hmatch.taken, le_rfl, hmatch.pushedSeen⟩, ?_⟩
  simp [returning, hcode]

variable (h : s.Logged failed lost)
include h

theorem simulates_loadTail {value : α} {flags : UInt32} {head : UInt64}
    (hpc : s.publish = .loadedHead value flags head) (k : Nat) (hfresh : fresh → k = s.queue.ring.tail.stores.length) :
    s.Simulates (s.publishStep (.loadTail k)) fresh q (s.publishReturns (.loadTail k)) := by
  obtain ⟨records, hinv⟩ := h.inv
  obtain ⟨-, rfl⟩ : s.queue.producer.pc = .idle ∧ head = UInt64.ofNat s.queue.producer.accepted.length := by
    have hat := hinv.publishAt
    rwa [PublishAt, hpc] at hat
  cases hload : s.queue.ring.tail.load s.queue.producer.tailView k with
  | none =>
    have hstep : s.publishStep (.loadTail k) = s := by simp only [publishStep, hpc, hload]
    rw [publishReturns_of_same hstep rfl, hstep]
    exact simulates_silent hmatch rfl rfl
  | some tail =>
    obtain ⟨hk, hk', rfl⟩ := hinv.queue.ring.tail_counts.load_eq_some.mp hload
    by_cases hfull : cap.size ≤ UInt64.ofNat s.queue.producer.accepted.length - UInt64.ofNat k
    · have hstep : s.publishStep (.loadTail k) =
          { s with queue.producer.tailView := k }.returning ⟨.full, "broker queue is full"⟩ := by
        simp only [publishStep, hpc, hload, if_pos hfull]
      obtain ⟨q', htakes, hmatch'⟩ := hmatch.full hinv.queue.ring hk hk' hinv.queue.window hfull hfresh
      obtain ⟨u, hnext, rfl⟩ := htakes
      rw [publishReturns_of_reply hstep rfl, hstep]
      refine ⟨u, takes_singleton (.queue hnext (fun hpushed => ?_)), hmatch', ?_⟩
      · contradiction
      · simp [returning, event, replyCode]
    · have hstep : s.publishStep (.loadTail k) =
          { s with queue.producer.tailView := k, publish := .notFull value flags } := by
        simp only [publishStep, hpc, hload, if_neg hfull]
      rw [publishReturns_of_same hstep rfl, hstep]
      exact ⟨q, rfl, hmatch.loadTail hk, (List.append_nil _).symm⟩

theorem simulates_append (hpayload : (TriviallyCopyable.size α).toNat < 2 ^ 32) {value : α} {flags : UInt32}
    (hpc : s.publish = .notFull value flags) (clock : UInt64) (msyncOk : Bool) :
    s.Simulates (s.publishStep (.append clock msyncOk)) fresh q (s.publishReturns (.append clock msyncOk)) := by
  obtain ⟨records, hinv⟩ := h.inv
  obtain ⟨-, hroom⟩ : s.queue.producer.pc = .idle ∧
      s.queue.producer.accepted.length < s.queue.producer.tailView + cap.toNat := by
    have hat := hinv.publishAt
    rwa [PublishAt, hpc] at hat
  have hview : s.queue.producer.tailView ≤ q.taken := hmatch.taken ▸ hinv.queue.view_le
  have hlen : q.values.length = s.queue.producer.accepted.length := by rw [hmatch.values, List.length_map]
  have hlog := h.length_le
  have hcheck := h.logs.checkAppend_eq hpayload value flags
  have hflight : s.inFlight = [] := by rw [inFlight, hpc]
  rw [hflight] at hlog hcheck
  rw [List.append_nil] at hcheck
  have happend : s.writer.append (messageView value flags) clock msyncOk = _ :=
    WalWriter.append_eq hinv.writer clock msyncOk
  rw [show s.writer.checkAppend _ = _ from hcheck] at happend
  by_cases hspace : s.queue.producer.accepted.length < recordCapacity α s.writer.file.size
  · rw [show s.logOnly.writer = s.writer from rfl, if_pos hspace] at happend
    by_cases hfail : (s.writer.flushOnAppend && !msyncOk) = true
    · rw [if_neg (by decide), if_pos hfail] at happend
      have hstep := (publishStep_append hpc happend).trans (if_pos rfl)
      rw [publishReturns_of_reply hstep rfl, hstep]
      exact simulates_refused hmatch rfl (.notLasting hmatch.takenSeen hview (by omega) (by omega))
    · rw [if_neg (by decide), if_neg hfail] at happend
      have hstep := (publishStep_append hpc happend).trans (if_neg (by decide))
      rw [publishReturns_of_same hstep rfl, hstep]
      exact simulates_silent hmatch rfl rfl
  · rw [show s.logOnly.writer = s.writer from rfl, if_neg hspace, if_pos (by decide)] at happend
    have hstep := (publishStep_append hpc happend).trans (if_pos rfl)
    rw [publishReturns_of_reply hstep rfl, hstep]
    refine simulates_refused hmatch rfl (.logFull hmatch.takenSeen hview (by omega) ?_)
    simp only [List.length_nil] at hlog
    omega

theorem simulates_push {value : α} (hpc : s.publish = .appended value) (a : PushStep) :
    s.Simulates (s.publishStep (.push a)) fresh q (s.publishReturns (.push a)) := by
  obtain ⟨records, hinv⟩ := h.inv
  obtain ⟨hcarries, hroom⟩ := hinv.appendedAt hpc
  obtain ⟨q', htakes, hmatch'⟩ := hinv.queue.matches_emplaceStep hmatch (a.emplace value) False.elim
  have hlog := h.length_le
  rw [inFlight, hpc] at hlog
  rcases hinv.queue.push_of_room hcarries hroom a with ⟨hresult, -⟩ | ⟨hresult, -, hacc⟩
  · have hstep : s.publishStep (.push a) = { s with queue := s.queue.step (.producer (a.emplace value)) } := by
      simp only [publishStep, hpc, hresult]
    rw [publishReturns_of_same hstep rfl, hstep]
    rw [Ring.emplaceReturns, hresult] at htakes
    obtain rfl : q = q' := htakes
    exact ⟨q, rfl, hmatch', (List.append_nil _).symm⟩
  · have hstep : s.publishStep (.push a) =
        { s with queue := s.queue.step (.producer (a.emplace value)) }.returning .ok := by
      simp only [publishStep, hpc, hresult]
    rw [publishReturns_of_reply hstep rfl, hstep]
    rw [Ring.emplaceReturns, hresult] at htakes
    obtain ⟨u, hnext, rfl⟩ := htakes
    -- the value that goes into the queue is the one whose record was written
    have hvalue : s.queue.producer.pc.pending.head? = some value := by
      have hvalues := hmatch'.values
      rw [hacc, hnext.values, hmatch.values, List.map_append] at hvalues
      exact List.head_eq_of_cons_eq (List.append_cancel_left hvalues)
    rw [hvalue] at hnext
    rw [hpc]
    refine ⟨u, takes_singleton (.queue hnext.of_pushed fun _ => ?_), hmatch', ?_⟩
    · rw [hmatch.values, List.length_map]
      exact hlog
    · simp [returning, event, replyCode, PublishPc.value, Status.ok]

theorem simulates_publishStep (hpayload : (TriviallyCopyable.size α).toNat < 2 ^ 32) (a : PublishStep α)
    (hfresh : fresh → s.upToDate (.producer a) = true) :
    s.Simulates (s.publishStep a) fresh q (s.publishReturns a) := by
  obtain ⟨records, hinv⟩ := h.inv
  cases hpc : s.publish <;> cases a <;> first
    | exact simulates_loadTail hmatch h hpc _ fun hf => of_decide_eq_true (hfresh hf)
    | exact simulates_append hmatch h hpayload hpc _ _
    | exact simulates_push hmatch h hpc _
    -- the call starts, or the step belongs to another program point
    | exact simulates_quiet hmatch (by simp [publishStep, hpc, hinv.valid]) (by simp [publishStep, hpc, hinv.valid])

end Publish

omit [TriviallyCopyable α] in
theorem popReturns_of_pop (a : PopStep α) (r : Ring cap α) (c : Consumer α) :
    (∀ e ∈ r.popReturns a c, e.isPushed = false) ∧ ((r.popReturns a c).map .queue).filterMap replyCode = [] := by
  unfold Ring.popReturns
  split <;> simp [FifoEvent.isPushed, replyCode]

theorem simulates_consumer (h : s.Logged failed lost)
    (hmatch : Matches s.queue.consumer s.queue.producer.accepted s.queue.producer.tailView q) (a : PopStep α)
    (hfresh : fresh → s.upToDate (.consumer a) = true) :
    s.Simulates (s.step (.consumer a)) fresh q (s.returns (.consumer a)) := by
  obtain ⟨records, hinv⟩ := h.inv
  by_cases hthrows : ∃ residue, a = .moveThrows residue
  · obtain ⟨residue, rfl⟩ := hthrows
    exact simulates_silent hmatch rfl rfl
  · have hstep : s.step (.consumer a) = { s with queue := s.queue.step (.consumer a) } ∧
        s.returns (.consumer a) = (s.queue.ring.popReturns a s.queue.consumer).map .queue := by
      cases a <;> simp_all [Session.step, returns, hinv.valid]
    obtain ⟨q', htakes, hmatch'⟩ := hmatch.popStep hinv.queue.ring hinv.holds a hfresh
    obtain ⟨hpop, hnone⟩ := popReturns_of_pop a s.queue.ring s.queue.consumer
    rw [hstep.1, hstep.2]
    refine ⟨q', DelayedFifo.takes_queue htakes hpop, hmatch', ?_⟩
    rw [hnone]
    exact (List.append_nil _).symm

theorem size_step (s : Session cap α) (a : SessionStep α) : (s.step a).writer.file.size = s.writer.file.size := by
  rcases s.writer_step a with hsame | ⟨message, clock, msyncOk, happend⟩
  · rw [hsame]
  · rw [happend, WalWriter.size_append]

theorem Refines.step (h : s.Refines fileSize q) (a : SessionStep α) (hfresh : fresh → s.upToDate a = true) :
    ∃ q', Takes (DelayedFifo.LoggedNext fresh cap.toNat (recordCapacity α fileSize)) q (s.returns a) q' ∧
      (s.step a).Refines fileSize q' ∧
      (s.step a).replies.map Status.code = s.replies.map Status.code ++ (s.returns a).filterMap replyCode := by
  obtain ⟨⟨failed, lost, hlogged⟩, rfl, hpayload, hmatch⟩ := h
  have hsimulates : s.Simulates (s.step a) fresh q (s.returns a) := by
    cases a with
    | producer a => exact simulates_publishStep hmatch hlogged hpayload a hfresh
    | consumer a => exact simulates_consumer hlogged hmatch a hfresh
  obtain ⟨q', htakes, hmatch', hreplies⟩ := hsimulates
  exact ⟨q', htakes, ⟨⟨_, hlogged.step a⟩, s.size_step a, hpayload, hmatch'⟩, hreplies⟩

theorem Refines.run (h : s.Refines fileSize q) (steps : List (SessionStep α)) :
    ∃ q', Takes (DelayedFifo.LoggedNext False cap.toNat (recordCapacity α fileSize)) q (s.history steps) q' ∧
      (s.run steps).Refines fileSize q' ∧
      (s.run steps).replies.map Status.code = s.replies.map Status.code ++ (s.history steps).filterMap replyCode := by
  induction steps generalizing s q with
  | nil => exact ⟨q, rfl, h, (List.append_nil _).symm⟩
  | cons a steps ih =>
    obtain ⟨u, htakes, hu, hreplies⟩ := h.step a False.elim
    obtain ⟨q', hrest, hq', hmore⟩ := ih hu
    refine ⟨q', htakes.append hrest, hq', hmore.trans ?_⟩
    rw [hreplies, List.append_assoc, ← List.filterMap_append]
    rfl

theorem Refines.run_reliable (h : s.Refines fileSize {}) (steps : List (SessionStep α)) :
    ∃ q, Takes (LoggedFifo.Next cap.toNat (recordCapacity α fileSize)) {} (s.reliableHistory steps) q.logged ∧
      (s.run steps).Refines fileSize q := by
  refine DelayedFifo.simulates_reliable_logged (R := fun s : Session cap α => s.Refines fileSize)
    (P := fun _ _ => True) (fun s q a h _ => ?_) h (along_of_forall_mem fun _ _ _ => trivial)
  obtain ⟨q', htakes, hrefines, -⟩ := h.step a fun hfresh : s.upToDate a = true => hfresh
  exact ⟨q', htakes, hrefines⟩

theorem refines_start {config : BrokerConfig} {calls : CreateCalls} {b : PersistentBroker cap α}
    (hopen : ({} : PersistentBroker cap α).openConfig config calls = (.ok, b)) :
    (start b).Refines config.wal.fileSizeBytes {} := by
  obtain ⟨hserving, hbroker, hzeros⟩ := serving_openConfig hopen
  have hopened : b.Opened config := opened [] hopen
  exact ⟨⟨[], none, logged_start hserving hbroker hzeros⟩, hopened.fileSize, hopened.payload, matches_initial α⟩

/-- What the two threads of an opened broker are told, in the order in which the calls return, is
a history of a queue whose ends see each other late and whose log has room for as many values as
the file has for records. Without the refusals for which the call has loaded an old counter it is
a history of the plain queue with that log. No call of `try_publish` ends in any other way.
Wherever the process ends, a new one recovers the log of that history and at most one value more,
between two steps the one on its way or the last one that was answered with `io_error`. -/
theorem durably_linearizable (config : BrokerConfig) (calls : CreateCalls) (b : PersistentBroker cap α)
    (hopen : ({} : PersistentBroker cap α).openConfig config calls = (.ok, b)) (steps : List (SessionStep α)) :
    let s := (start b).run steps
    let history := (start b).history steps
    let accepted := s.queue.producer.accepted
    let logBound := recordCapacity α config.wal.fileSizeBytes
    s.replies.map Status.code = history.filterMap replyCode ∧
    (∃ q : DelayedFifo (Option α), Takes (DelayedFifo.LoggedNext False cap.toNat logBound) {} history q ∧
      q.values = accepted.map some ∧ q.taken = s.queue.consumer.returned.length) ∧
    Takes (LoggedFifo.Next cap.toNat logBound) {} ((start b).reliableHistory steps)
      ⟨accepted.map some, (accepted.drop s.queue.consumer.returned.length).map some⟩ ∧
    (Along step (fun s a => s.upToDate a = true) (start b) steps → (start b).reliableHistory steps = history) ∧
    ∀ content path openCalls r, s.Crash content → WalReader.openPath path content openCalls = .ok r →
      ∃ (status : Status) (more : List α),
        Recovers path content openCalls status (accepted ++ more) ∧ more.length ≤ 1 ∧
        (content = s.writer.file.content → status = .ok ∧
          (more = s.inFlight ∨ ∃ value, ((start b).failed steps).getLast? = some value ∧ more = [value])) := by
  intro s history accepted logBound
  have hstart := refines_start hopen
  obtain ⟨q, htakes, hrefines, hreplies⟩ := hstart.run steps
  refine ⟨hreplies, ⟨q, htakes, hrefines.isMatch.values, hrefines.isMatch.taken⟩, ?_, fun hfresh => ?_, ?_⟩
  · obtain ⟨q', hreliable, hrefines'⟩ := hstart.run_reliable steps
    rwa [DelayedFifo.logged, hrefines'.isMatch.contents_eq, hrefines'.isMatch.values] at hreliable
  · refine hfresh.emitted_filter fun e => ?_
    cases e <;> rfl
  · intro content path openCalls r hcrash hread
    obtain ⟨hserving, hbroker, hzeros⟩ := serving_openConfig hopen
    obtain ⟨lost, hlogged⟩ := (logged_start hserving hbroker hzeros).run steps
    exact hlogged.recovers_crash hcrash hread

def publishedSeven : List (SessionStep UInt8) :=
  halfPublished ++ [PushStep.loadHead, .loadTail 0, .constructAt, .storeHead].map fun a => .producer (.push a)

theorem durably_linearizable_publishedSeven :
    ({} : PersistentBroker .least UInt8).openConfig smallConfig ⟨some 3, true, some 4096⟩ = (.ok, smallBroker) ∧
      (start smallBroker).history publishedSeven = [.queue (.pushed (some 7))] ∧
      Takes (LoggedFifo.Next 2 2) {} [.queue (.pushed (some (7 : UInt8)))] ⟨[some 7], [some 7]⟩ := by
  have hopen : ({} : PersistentBroker .least UInt8).openConfig smallConfig ⟨some 3, true, some 4096⟩ =
    (.ok, smallBroker) := rfl
  obtain ⟨-, -, hreliable, -⟩ := durably_linearizable smallConfig _ _ hopen publishedSeven
  exact ⟨hopen, rfl, hreliable⟩

end Session
end AetherStream.PersistentBroker
