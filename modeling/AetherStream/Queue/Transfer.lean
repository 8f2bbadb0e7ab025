import AetherStream.Queue.Linearizable

/-! Two threads that hand values over through one queue: a sender that calls `try_push` in a
loop and a receiver that calls `try_pop` in a loop, each trying again when the queue has no room
or no value for it. -/

namespace AetherStream
open Basis ModularCounter

inductive TakeStep where
  | loadTail
  | loadHead (k : Nat)
  | moveOut
  | destroyAt
  | storeTail
  deriving DecidableEq, Repr

def TakeStep.pop {α : Type*} : TakeStep → PopStep α
  | loadTail => .loadTail
  | loadHead k => .loadHead k
  | moveOut => .moveOut
  | destroyAt => .destroyAt
  | storeTail => .storeTail

/-- The text of the loops, with the local variables of the sender in `β`, those of the receiver in
`γ`, and a flag that the receiver stores and both loop conditions read. -/
structure Transfer (α β γ φ : Type*) where
  -- the value to push next, unless the loop is over
  send : β → φ → Option α
  sent : β → Bool → β
  more : γ → φ → Bool
  -- `none` is an empty queue
  received : γ → Option (Option α) → γ × Option φ

namespace Transfer

inductive SenderPc (α : Type*) where
  | top
  | calling (v : α)
  | done
  deriving DecidableEq, Repr

inductive ReceiverPc (α : Type*) where
  | top
  | calling
  | returned (result : Option (Option α))
  | done
  deriving DecidableEq, Repr

structure State (cap : Capacity) (α β γ φ : Type*) where
  queue : SpscRingBuffer cap α
  flag : AtomicCell φ
  flagView : Nat
  senderPc : SenderPc α
  sender : β
  receiverPc : ReceiverPc α
  receiver : γ

inductive Step where
  | sendTop (k : Nat)
  | push (a : PushStep)
  | receiveTop
  | pop (a : TakeStep)
  | receiveBody
  deriving DecidableEq, Repr

variable {cap : Capacity} {α β γ φ : Type*}

def State.start (cap : Capacity) (α : Type*) (flag : φ) (sender : β) (receiver : γ) : State cap α β γ φ where
  queue := .initial cap α
  flag := ⟨flag, []⟩
  flagView := 0
  senderPc := .top
  sender := sender
  receiverPc := .top
  receiver := receiver

/-- What a thread does between two accesses to shared memory is part of one step. -/
def step (t : Transfer α β γ φ) (s : State cap α β γ φ) : Step → State cap α β γ φ
  | .sendTop k =>
    match s.senderPc, s.flag.load s.flagView k with
    | .top, some flag =>
      { s with senderPc := (t.send s.sender flag).elim .done .calling, flagView := k }
    | _, _ => s
  | .push a =>
    match s.senderPc with
    | .calling v =>
      let queue := s.queue.step (.producer (a.emplace v))
      match (s.queue.ring.emplaceStep (a.emplace v) s.queue.producer).2.2 with
      | none => { s with queue := queue }
      | some ok => { s with queue := queue, senderPc := .top, sender := t.sent s.sender ok }
    | _ => s
  | .receiveTop =>
    match s.receiverPc with
    | .top => { s with receiverPc := if t.more s.receiver s.flag.current then .calling else .done }
    | _ => s
  | .pop a =>
    match s.receiverPc with
    | .calling =>
      let queue := s.queue.step (.consumer a.pop)
      match s.queue.ring.popReturns a.pop s.queue.consumer with
      | .popped out :: _ => { s with queue := queue, receiverPc := .returned (some out) }
      | .empty :: _ => { s with queue := queue, receiverPc := .returned none }
      | _ => { s with queue := queue }
    | _ => s
  | .receiveBody =>
    match s.receiverPc with
    | .returned result =>
      let body := t.received s.receiver result
      { s with receiverPc := .top, receiver := body.1, flag := body.2.elim s.flag s.flag.store }
    | _ => s

def run (t : Transfer α β γ φ) (s : State cap α β γ φ) (steps : List Step) : State cap α β γ φ :=
  steps.foldl t.step s

def State.Finished (s : State cap α β γ φ) : Prop := s.senderPc = .done ∧ s.receiverPc = .done

/-- What the loops are for: `total` values are sent one after the other, `Sent n` and `Received n`
hold of the local variables after `n` of them, and nobody touches the flag. -/
structure Spec (t : Transfer α β γ φ) where
  value : Nat → α
  total : Nat
  flag : φ
  Sent : Nat → β → Prop
  Received : Nat → γ → Prop
  send_eq : ∀ {n b}, Sent n b → n ≤ total → t.send b flag = if n < total then some (value n) else none
  sent : ∀ {n b} (ok : Bool), Sent n b → n < total → Sent (if ok then n + 1 else n) (t.sent b ok)
  more_eq : ∀ {n g}, Received n g → n ≤ total → t.more g flag = decide (n < total)
  received : ∀ {n g}, Received n g → n < total →
    (t.received g (some (some (value n)))).2 = none ∧ Received (n + 1) (t.received g (some (some (value n)))).1
  received_empty : ∀ {n g}, Received n g → (t.received g none).2 = none ∧ Received n (t.received g none).1

theorem emplaceStep_carries {r : Ring cap α} {p : Producer α} {v : α} (h : SpscRingBuffer.Carries v p.pc)
    (a : PushStep) :
    let p' := (r.emplaceStep (a.emplace v) p).2.1
    match (r.emplaceStep (a.emplace v) p).2.2 with
    | none => SpscRingBuffer.Carries v p'.pc ∧ p'.accepted = p.accepted
    | some ok => p'.pc = .idle ∧ p'.accepted = p.accepted ++ if ok then [v] else [] := by
  have hmove := r.emplaceMove (a.emplace v) p
  generalize r.emplaceStep (a.emplace v) p = result at hmove ⊢
  obtain ⟨r', p', returned⟩ := result
  generalize hstep : a.emplace v = step at hmove
  dsimp only at hmove ⊢
  cases hmove with
  | loadHead w hpc =>
    cases a <;> cases hstep
    exact ⟨rfl, rfl⟩
  | full hpc hload hfull => exact ⟨rfl, (List.append_nil _).symm⟩
  | hasRoom hpc hload hroom =>
    rw [hpc] at h
    exact ⟨h, rfl⟩
  | constructAt hpc =>
    rw [hpc] at h
    exact ⟨h, rfl⟩
  | constructThrows hpc => cases a <;> cases hstep
  | storeHead hpc =>
    rw [hpc] at h
    obtain rfl : _ = v := h
    exact ⟨rfl, rfl⟩
  | stay => exact ⟨h, rfl⟩

theorem popStep_returns {r : Ring cap α} {c : Consumer α} (a : TakeStep) :
    let c' := (r.popStep a.pop c).2
    (r.popReturns a.pop c = [] ∧ c'.returned = c.returned) ∨
      (r.popReturns a.pop c = [.empty] ∧ c'.pc = .idle ∧ c'.returned = c.returned) ∨
      ∃ out, r.popReturns a.pop c = [.popped out] ∧ c'.pc = .idle ∧ c'.returned = c.returned ++ [out] := by
  have hmove := r.popMove a.pop c
  unfold Ring.popReturns
  generalize r.popStep a.pop c = result at hmove ⊢
  obtain ⟨r', c'⟩ := result
  generalize hstep : a.pop = step at hmove
  dsimp only at hmove ⊢
  cases hmove with
  | loadTail hpc =>
    rw [hpc]
    exact Or.inl ⟨rfl, rfl⟩
  | empty hpc hload =>
    rw [hpc]
    exact Or.inr (Or.inl ⟨rfl, rfl, rfl⟩)
  | nonEmpty hpc hload =>
    rw [hpc]
    exact Or.inl ⟨rfl, rfl⟩
  | moveOut hpc =>
    rw [hpc]
    exact Or.inl ⟨rfl, rfl⟩
  | moveThrows residue hpc => cases a <;> cases hstep
  | destroyAt hpc =>
    rw [hpc]
    exact Or.inl ⟨rfl, rfl⟩
  | storeTail hpc =>
    rw [hpc]
    exact Or.inr (Or.inr ⟨_, rfl, rfl, rfl⟩)
  | stay => cases hpc : c.pc <;> exact Or.inl ⟨rfl, rfl⟩

namespace Spec
variable {t : Transfer α β γ φ} (spec : t.Spec)

def SenderAt (s : State cap α β γ φ) : Prop :=
  let p := s.queue.producer
  match s.senderPc with
  | .top => p.pc = .idle
  | .calling v => p.accepted.length < spec.total ∧ v = spec.value p.accepted.length ∧ SpscRingBuffer.Carries v p.pc
  | .done => p.pc = .idle ∧ p.accepted.length = spec.total

def ReceiverAt (s : State cap α β γ φ) : Prop :=
  let c := s.queue.consumer
  match s.receiverPc with
  | .top | .returned none => c.pc = .idle ∧ spec.Received c.popped s.receiver
  | .calling => c.popped < spec.total ∧ spec.Received c.popped s.receiver
  | .returned (some out) => c.pc = .idle ∧
      ∃ n, c.popped = n + 1 ∧ n < spec.total ∧ out = some (spec.value n) ∧ spec.Received n s.receiver
  | .done => c.pc = .idle ∧ c.popped = spec.total ∧ spec.Received c.popped s.receiver

structure Inv (s : State cap α β γ φ) : Prop where
  queue : s.queue.Inv
  holds : s.queue.ring.Holds s.queue.consumer s.queue.values
  flag : s.flag = ⟨spec.flag, []⟩
  flagView : s.flagView = 0
  accepted : s.queue.producer.accepted = (List.range s.queue.producer.accepted.length).map spec.value
  le_total : s.queue.producer.accepted.length ≤ spec.total
  sent : spec.Sent s.queue.producer.accepted.length s.sender
  sender : spec.SenderAt s
  receiver : spec.ReceiverAt s

theorem inv_start {sender : β} {receiver : γ} (hsent : spec.Sent 0 sender) (hreceived : spec.Received 0 receiver) :
    spec.Inv (State.start cap α spec.flag sender receiver) where
  queue := SpscRingBuffer.inv_initial cap α
  holds := Ring.holds_empty cap α
  flag := rfl
  flagView := rfl
  accepted := rfl
  le_total := Nat.zero_le _
  sent := hsent
  sender := rfl
  receiver := ⟨rfl, hreceived⟩

variable {spec} {s : State cap α β γ φ}

namespace Inv

theorem popped_le (h : spec.Inv s) : s.queue.consumer.popped ≤ spec.total :=
  h.queue.ring.popped_le_head.trans h.le_total

theorem load_flag (h : spec.Inv s) {k : Nat} {flag : φ} (hload : s.flag.load s.flagView k = some flag) :
    flag = spec.flag ∧ k = 0 := by
  rw [h.flag, AtomicCell.load] at hload
  split_ifs at hload
  obtain ⟨hk, rfl⟩ := List.getElem?_eq_some_iff.mp hload
  obtain rfl : k = 0 := by simpa [AtomicCell.history] using hk
  exact ⟨rfl, rfl⟩

theorem current_flag (h : spec.Inv s) : s.flag.current = spec.flag := by
  rw [h.flag]
  rfl

theorem sendTop (h : spec.Inv s) (k : Nat) : spec.Inv (t.step s (.sendTop k)) := by
  unfold step
  dsimp only
  split
  case h_1 flag hpc hload =>
    have hidle : s.queue.producer.pc = .idle := by simpa only [SenderAt, hpc] using h.sender
    obtain ⟨rfl, rfl⟩ := h.load_flag hload
    rw [spec.send_eq h.sent h.le_total]
    refine ⟨h.queue, h.holds, h.flag, rfl, h.accepted, h.le_total, h.sent, ?_, h.receiver⟩
    split_ifs with hlt
    · refine ⟨hlt, rfl, ?_⟩
      rw [hidle]
      trivial
    · exact ⟨hidle, le_antisymm h.le_total (Nat.le_of_not_lt hlt)⟩
  case h_2 => exact h

theorem push (h : spec.Inv s) (a : PushStep) : spec.Inv (t.step s (.push a)) := by
  unfold step
  dsimp only
  split
  case h_1 v hpc =>
    obtain ⟨hlt, hv, hcarries⟩ : _ < spec.total ∧ v = spec.value _ ∧ SpscRingBuffer.Carries v s.queue.producer.pc := by
      simpa only [SenderAt, hpc] using h.sender
    have hqueue := h.queue.step (.producer (a.emplace v))
    have hholds := h.queue.holds_step h.holds (.producer (a.emplace v)) (by simp)
    have hmove := emplaceStep_carries (r := s.queue.ring) hcarries a
    have hproducer : (s.queue.step (.producer (a.emplace v))).producer =
      (s.queue.ring.emplaceStep (a.emplace v) s.queue.producer).2.1 := rfl
    rw [← hproducer] at hmove
    generalize hreturned : (s.queue.ring.emplaceStep (a.emplace v) s.queue.producer).2.2 = returned at hmove ⊢
    cases returned with
    | none =>
      obtain ⟨hpc', haccepted⟩ := hmove
      refine ⟨hqueue, hholds, h.flag, h.flagView, ?_, ?_, ?_, ?_, h.receiver⟩
      · rw [haccepted]
        exact h.accepted
      · rw [haccepted]
        exact h.le_total
      · rw [haccepted]
        exact h.sent
      · simp only [SenderAt, hpc]
        rw [haccepted]
        exact ⟨hlt, hv, hpc'⟩
    | some ok =>
      obtain ⟨hpc', haccepted⟩ := hmove
      have hlen : (s.queue.step (.producer (a.emplace v))).producer.accepted.length =
          if ok then s.queue.producer.accepted.length + 1 else s.queue.producer.accepted.length := by
        rw [haccepted]
        cases ok <;> simp
      refine ⟨hqueue, hholds, h.flag, h.flagView, ?_, ?_, ?_, hpc', h.receiver⟩
      · rw [hlen, haccepted]
        cases ok with
        | true =>
          rw [if_pos rfl, if_pos rfl, List.range_succ, List.map_append, ← h.accepted, hv]
          rfl
        | false =>
          rw [if_neg (by decide), if_neg (by decide), List.append_nil]
          exact h.accepted
      · rw [hlen]
        split_ifs
        · exact hlt
        · exact h.le_total
      · rw [hlen]
        exact spec.sent ok h.sent hlt
  case h_2 => exact h

theorem receiveTop (h : spec.Inv s) : spec.Inv (t.step s .receiveTop) := by
  unfold step
  dsimp only
  split
  case h_1 hpc =>
    obtain ⟨hidle, hreceived⟩ : s.queue.consumer.pc = .idle ∧ spec.Received s.queue.consumer.popped s.receiver := by
      simpa only [ReceiverAt, hpc] using h.receiver
    refine ⟨h.queue, h.holds, h.flag, h.flagView, h.accepted, h.le_total, h.sent, h.sender, ?_⟩
    rw [h.current_flag, spec.more_eq hreceived h.popped_le]
    by_cases hlt : s.queue.consumer.popped < spec.total
    · rw [decide_eq_true hlt, if_pos rfl]
      exact ⟨hlt, hreceived⟩
    · rw [decide_eq_false hlt, if_neg (by decide)]
      exact ⟨hidle, le_antisymm h.popped_le (Nat.le_of_not_lt hlt), hreceived⟩
  case h_2 => exact h

theorem popped_value (h : spec.Inv s) {queue : SpscRingBuffer cap α} (hqueue : queue.Inv)
    (hholds : queue.ring.Holds queue.consumer queue.values) (hproducer : queue.producer = s.queue.producer)
    {out : Option α} (hreturned : queue.consumer.returned = s.queue.consumer.returned ++ [out]) :
    queue.consumer.popped = s.queue.consumer.popped + 1 ∧ out = some (spec.value s.queue.consumer.popped) := by
  have hpopped : queue.consumer.popped = s.queue.consumer.popped + 1 := by
    rw [Consumer.popped, hreturned, List.length_append]
    rfl
  refine ⟨hpopped, ?_⟩
  have hle := hqueue.ring.popped_le_head
  rw [hproducer, hpopped] at hle
  have hout : queue.consumer.returned[s.queue.consumer.popped]? = some out := by
    rw [hreturned, Consumer.popped, List.getElem?_concat_length]
  have hprefix := hholds.returned_prefix_published hqueue.ring
  rw [SpscRingBuffer.take_values, hproducer, h.accepted, List.map_map] at hprefix
  rw [List.prefix_iff_getElem?] at hprefix
  have hin : s.queue.consumer.popped < queue.consumer.returned.length := by
    rw [hreturned, List.length_append]
    exact Nat.lt_succ_self _
  have hget := hprefix _ hin
  rw [List.getElem?_map, List.getElem?_range (by omega)] at hget
  rw [List.getElem?_eq_getElem hin] at hout
  exact (Option.some.inj hout).symm.trans (Option.some.inj hget).symm

theorem pop (h : spec.Inv s) (a : TakeStep) : spec.Inv (t.step s (.pop a)) := by
  unfold step
  dsimp only
  split
  case h_1 hpc =>
    obtain ⟨hlt, hreceived⟩ : s.queue.consumer.popped < spec.total ∧
        spec.Received s.queue.consumer.popped s.receiver := by
      simpa only [ReceiverAt, hpc] using h.receiver
    have hqueue := h.queue.step (.consumer a.pop)
    have hholds := h.queue.holds_step h.holds (.consumer a.pop) (by cases a <;> simp [TakeStep.pop])
    have hproducer : (s.queue.step (.consumer a.pop)).producer = s.queue.producer := rfl
    have hconsumer : (s.queue.step (.consumer a.pop)).consumer = (s.queue.ring.popStep a.pop s.queue.consumer).2 := rfl
    have hsame (hret : (s.queue.step (.consumer a.pop)).consumer.returned = s.queue.consumer.returned) :
        (s.queue.step (.consumer a.pop)).consumer.popped = s.queue.consumer.popped := congrArg List.length hret
    rcases popStep_returns (r := s.queue.ring) (c := s.queue.consumer) a with
      ⟨hreturns, hret⟩ | ⟨hreturns, hidle, hret⟩ | ⟨out, hreturns, hidle, hret⟩
    · rw [hreturns]
      refine ⟨hqueue, hholds, h.flag, h.flagView, h.accepted, h.le_total, h.sent, h.sender, ?_⟩
      simp only [ReceiverAt, hpc, hsame hret]
      exact ⟨hlt, hreceived⟩
    · rw [hreturns]
      refine ⟨hqueue, hholds, h.flag, h.flagView, h.accepted, h.le_total, h.sent, h.sender, hidle, ?_⟩
      dsimp only
      rw [hsame hret]
      exact hreceived
    · rw [hreturns]
      obtain ⟨hpopped, hout⟩ := h.popped_value hqueue hholds hproducer hret
      exact ⟨hqueue, hholds, h.flag, h.flagView, h.accepted, h.le_total, h.sent, h.sender, hidle, _, hpopped, hlt,
        hout, hreceived⟩
  case h_2 => exact h

theorem receiveBody (h : spec.Inv s) : spec.Inv (t.step s .receiveBody) := by
  unfold step
  dsimp only
  split
  case h_1 result hpc =>
    have hat := h.receiver
    simp only [ReceiverAt, hpc] at hat
    cases result with
    | none =>
      obtain ⟨hidle, hreceived⟩ := hat
      obtain ⟨hflag, hnext⟩ := spec.received_empty hreceived
      rw [hflag]
      exact ⟨h.queue, h.holds, h.flag, h.flagView, h.accepted, h.le_total, h.sent, h.sender, hidle, hnext⟩
    | some out =>
      obtain ⟨hidle, n, hpopped, hlt, rfl, hreceived⟩ := hat
      obtain ⟨hflag, hnext⟩ := spec.received hreceived hlt
      rw [hflag]
      refine ⟨h.queue, h.holds, h.flag, h.flagView, h.accepted, h.le_total, h.sent, h.sender, hidle, ?_⟩
      dsimp only
      rw [hpopped]
      exact hnext
  case h_2 => exact h

theorem step (h : spec.Inv s) (a : Step) : spec.Inv (t.step s a) := by
  cases a with
  | sendTop k => exact h.sendTop k
  | push a => exact h.push a
  | receiveTop => exact h.receiveTop
  | pop a => exact h.pop a
  | receiveBody => exact h.receiveBody

theorem run (h : spec.Inv s) (steps : List Step) : spec.Inv (t.run s steps) :=
  List.foldlRecOn steps t.step h fun _ hinv a _ => hinv.step a

theorem returned_prefix (h : spec.Inv s) :
    s.queue.consumer.returned <+: (List.range spec.total).map fun n => some (spec.value n) := by
  have hprefix := h.holds.returned_prefix_published h.queue.ring
  rw [SpscRingBuffer.take_values, h.accepted, List.map_map] at hprefix
  have hrange : List.range s.queue.producer.accepted.length <+: List.range spec.total := by
    rw [← Nat.min_eq_left h.le_total, ← List.take_range]
    exact List.take_prefix _ _
  exact hprefix.trans (hrange.map _)

theorem finished (h : spec.Inv s) (hdone : s.Finished) :
    s.queue.ring.isEmpty = true ∧ s.queue.producer.accepted.length = spec.total ∧
      s.queue.consumer.popped = spec.total ∧ spec.Sent spec.total s.sender ∧ spec.Received spec.total s.receiver := by
  obtain ⟨hsender, hreceiver⟩ := hdone
  obtain ⟨-, hall⟩ : _ ∧ s.queue.producer.accepted.length = spec.total := by
    simpa only [SenderAt, hsender] using h.sender
  obtain ⟨-, hpopped, hreceived⟩ : _ ∧ s.queue.consumer.popped = spec.total ∧ _ := by
    simpa only [ReceiverAt, hreceiver] using h.receiver
  refine ⟨?_, hall, hpopped, hall ▸ h.sent, hpopped ▸ hreceived⟩
  rw [Ring.isEmpty, h.queue.ring.head_counts.current_eq, h.queue.ring.tail_counts.current_eq, hall, hpopped]
  exact beq_self_eq_true _

end Inv
end Spec
end Transfer

end AetherStream
