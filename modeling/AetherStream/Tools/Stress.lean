import AetherStream.Cli.Options
import AetherStream.Queue.FairTransfer
import AetherStream.Utils.SpinWait

/-! `tools/stress_spsc.cpp`: `run_stress` sends the numbers below `messages` through the queue and
checks that they arrive in order. -/

namespace AetherStream.Tools
open Basis Cli Transfer Utils

structure StressProducer where
  value : UInt64 := 0
  spin : ThreadUtils.SpinWait := {}
  pushRetries : UInt64 := 0

structure StressConsumer where
  expected : UInt64 := 0
  spin : ThreadUtils.SpinWait := {}
  consumed : UInt64 := 0
  popRetries : UInt64 := 0
  left : Bool := false

def stress (messages : UInt64) : Transfer UInt64 StressProducer StressConsumer Bool where
  send p failed := if p.value < messages && !failed then some p.value else none
  sent p ok :=
    if ok then { p with value := p.value + 1, spin := p.spin.reset }
    else { p with pushRetries := p.pushRetries + 1, spin := p.spin.wait.2 }
  more c failed := !c.left && (c.expected < messages && !failed)
  received c
    | none => ({ c with popRetries := c.popRetries + 1, spin := c.spin.wait.2 }, none)
    | some value =>
      if value ≠ some c.expected then ({ c with left := true }, some true)
      else ({ c with expected := c.expected + 1, consumed := c.expected + 1, spin := c.spin.reset }, none)

abbrev StressState (cap : Capacity) := State cap UInt64 StressProducer StressConsumer Bool

def StressState.start (cap : Capacity) : StressState cap := State.start cap UInt64 false {} {}

def StressState.passed {cap : Capacity} (s : StressState cap) (messages : UInt64) : Bool :=
  !s.flag.current && s.receiver.consumed == messages && s.queue.ring.isEmpty

/-- What `run_stress` prints and `main` returns; the two `double`s are printed as given. -/
def StressState.exit {cap : Capacity} (s : StressState cap) (messages : UInt64) (seconds perSecond : String) :
    Exit where
  status := if s.passed messages then 0 else 1
  out :=
    ["capacity: " ++ toString cap.size ++ "\n",
      "messages: " ++ toString messages ++ "\n",
      "elapsed_seconds: " ++ seconds ++ "\n",
      "messages_per_second: " ++ perSecond ++ "\n",
      "push_retries: " ++ toString s.sender.pushRetries ++ "\n",
      "pop_retries: " ++ toString s.receiver.popRetries ++ "\n",
      "validation: " ++ (if s.passed messages then "passed" else "failed") ++ "\n"]

def stressSpec (messages : UInt64) : (stress messages).Spec where
  value := UInt64.ofNat
  total := messages.toNat
  flag := false
  Sent n p := p.value = UInt64.ofNat n
  Received n c := c.expected = UInt64.ofNat n ∧ c.consumed = UInt64.ofNat n ∧ c.left = false
  send_eq := by
    intro n p hsent hle
    simp [stress, hsent, ModularCounter.ofNat_lt_iff hle]
  sent := by
    intro n p ok hsent _
    cases ok with
    | true => exact (congrArg (· + 1) hsent).trans (ModularCounter.ofNat_succ n)
    | false => exact hsent
  more_eq := by
    intro n c ⟨hexpected, _, hleft⟩ hle
    simp [stress, hleft, hexpected, ModularCounter.ofNat_lt_iff hle]
  received := by
    intro n c ⟨hexpected, _, hleft⟩ _
    have hequal : ¬ some (UInt64.ofNat n) ≠ some c.expected := by rw [hexpected]; simp
    have hnext : c.expected + 1 = UInt64.ofNat (n + 1) := by rw [hexpected, ModularCounter.ofNat_succ]
    simp only [stress, if_neg hequal]
    exact ⟨trivial, hnext, hnext, hleft⟩
  received_empty := fun hreceived => ⟨rfl, hreceived⟩

theorem inv_stress (cap : Capacity) (messages : UInt64) : (stressSpec messages).Inv (StressState.start cap) :=
  (stressSpec messages).inv_start rfl ⟨rfl, rfl, rfl⟩

theorem passed_of_finished {cap : Capacity} {messages : UInt64} {s : StressState cap}
    (h : (stressSpec messages).Inv s) (hdone : s.Finished) : s.passed messages = true := by
  obtain ⟨hempty, -, -, -, -, hconsumed, -⟩ := h.finished hdone
  have hall : s.receiver.consumed = messages := hconsumed.trans (UInt64.ofNat_toNat ..)
  have hflag : s.flag.current = false := h.current_flag
  simp [StressState.passed, hflag, hall, hempty]

/-- Whatever the schedule and however late the loads: `failed` is never set, and once both threads
have ended the tool reports that the validation passed and exits with zero. -/
theorem stress_never_fails (cap : Capacity) (messages : UInt64) (steps : List Step) (seconds perSecond : String) :
    let s : StressState cap := (stress messages).run (StressState.start cap) steps
    s.flag.current = false ∧
      s.queue.consumer.returned <+: (List.range messages.toNat).map (fun n => some (UInt64.ofNat n)) ∧
      (s.Finished → (s.exit messages seconds perSecond).status = 0 ∧
        (s.exit messages seconds perSecond).out.getLast? = some "validation: passed\n") := by
  intro s
  have h : (stressSpec messages).Inv s := (inv_stress cap messages).run steps
  refine ⟨h.current_flag, h.returned_prefix, fun hdone => ?_⟩
  simp only [StressState.exit, passed_of_finished h hdone, if_true]
  exact ⟨trivial, rfl⟩

def oneMessage : List Step :=
  [.sendTop 0, .push .loadHead, .push (.loadTail 0), .push .constructAt, .push .storeHead, .sendTop 0,
    .receiveTop, .pop .loadTail, .pop (.loadHead 1), .pop .moveOut, .pop .destroyAt, .pop .storeTail, .receiveBody,
    .receiveTop]

theorem stress_never_fails_oneMessage :
    let s : StressState .least := (stress 1).run (StressState.start .least) oneMessage
    s.Finished ∧ (s.exit 1 "1" "1").status = 0 := by
  intro s
  have hdone : s.Finished := ⟨rfl, rfl⟩
  exact ⟨hdone, ((stress_never_fails .least 1 oneMessage "1" "1").2.2 hdone).1⟩

/-- With loads of the newest stores, every fair schedule brings the tool to that exit. -/
theorem stress_ends (cap : Capacity) (messages : UInt64) (schedule : Nat → Thread) (hfair : Fair schedule)
    (seconds perSecond : String) :
    ∃ n, let s : StressState cap := stateAt (stress messages).turn (StressState.start cap) schedule n
      s.Finished ∧ (s.exit messages seconds perSecond).status = 0 := by
  obtain ⟨n, h, hdone⟩ := (inv_stress cap messages).eventually_finished hfair
  refine ⟨n, hdone, ?_⟩
  simp only [StressState.exit, passed_of_finished h hdone, if_true]

def takeTurns (n : Nat) : Thread := if n % 2 = 0 then .sender else .receiver

theorem fair_takeTurns : Fair takeTurns := by
  intro i n
  cases i with
  | sender => exact ⟨2 * n, by omega, if_pos (by omega)⟩
  | receiver => exact ⟨2 * n + 1, by omega, if_neg (by omega)⟩

theorem stress_ends_takeTurns :
    ∃ n, let s : StressState .least := stateAt (stress 3).turn (StressState.start .least) takeTurns n
      s.Finished ∧ (s.exit 3 "1" "3").status = 0 :=
  stress_ends .least 3 takeTurns fair_takeTurns "1" "3"

end AetherStream.Tools
