import AetherStream.Queue.Transfer

/-! Two threads on one queue, whatever their loops do with a full or an empty queue: if the local
variables of each follow what its own calls returned, they do so in every interleaving, and what
the receiver took is the start of what the sender was accepted. -/

namespace AetherStream.Transfer
variable {cap : Capacity} {α β γ φ : Type*} {t : Transfer α β γ φ}

structure Follows (t : Transfer α β γ φ) (Sent : List α → β → Prop) (Received : List (Option α) → γ → Prop) :
    Prop where
  sent : ∀ {values b flag v}, Sent values b → t.send b flag = some v →
    ∀ ok : Bool, Sent (values ++ if ok then [v] else []) (t.sent b ok)
  received : ∀ {values g flag}, Received values g → t.more g flag = true →
    ∀ result, Received (values ++ result.toList) (t.received g result).1

variable {Sent : List α → β → Prop} {Received : List (Option α) → γ → Prop}

def SenderFollows (t : Transfer α β γ φ) (Sent : List α → β → Prop) (s : State cap α β γ φ) : Prop :=
  Sent s.queue.producer.accepted s.sender ∧
  match s.senderPc with
  | .top => s.queue.producer.pc = .idle
  | .calling v => SpscRingBuffer.Carries v s.queue.producer.pc ∧ ∃ flag, t.send s.sender flag = some v
  | .done => ∃ flag, t.send s.sender flag = none

def ReceiverFollows (t : Transfer α β γ φ) (Received : List (Option α) → γ → Prop) (s : State cap α β γ φ) : Prop :=
  match s.receiverPc with
  | .top => s.queue.consumer.pc = .idle ∧ Received s.queue.consumer.returned s.receiver
  | .calling => (∃ flag, t.more s.receiver flag = true) ∧ Received s.queue.consumer.returned s.receiver
  | .returned result => s.queue.consumer.pc = .idle ∧ (∃ flag, t.more s.receiver flag = true) ∧
      ∃ values, s.queue.consumer.returned = values ++ result.toList ∧ Received values s.receiver
  | .done => s.queue.consumer.pc = .idle ∧ (∃ flag, t.more s.receiver flag = false) ∧
      Received s.queue.consumer.returned s.receiver

structure Following (t : Transfer α β γ φ) (Sent : List α → β → Prop) (Received : List (Option α) → γ → Prop)
    (s : State cap α β γ φ) : Prop where
  queue : s.queue.Inv
  holds : s.queue.ring.Holds s.queue.consumer s.queue.values
  sender : SenderFollows t Sent s
  receiver : ReceiverFollows t Received s

namespace Following
variable {s : State cap α β γ φ} (h : Following t Sent Received s)
include h

theorem sendTop (k : Nat) : Following t Sent Received (t.step s (.sendTop k)) := by
  unfold step
  dsimp only
  split
  case h_1 flag hpc hload =>
    obtain ⟨hsent, hidle⟩ : Sent _ _ ∧ s.queue.producer.pc = .idle := by
      simpa only [SenderFollows, hpc] using h.sender
    refine ⟨h.queue, h.holds, ⟨hsent, ?_⟩, h.receiver⟩
    cases hsend : t.send s.sender flag with
    | none => exact ⟨flag, hsend⟩
    | some v =>
      refine ⟨?_, flag, hsend⟩
      rw [hidle]
      trivial
  case h_2 => exact h

theorem push (hfollows : t.Follows Sent Received) (a : PushStep) : Following t Sent Received (t.step s (.push a)) := by
  unfold step
  dsimp only
  split
  case h_1 v hpc =>
    obtain ⟨hsent, hcarries, flag, hsend⟩ : Sent _ _ ∧ SpscRingBuffer.Carries v s.queue.producer.pc ∧ ∃ flag, _ := by
      simpa only [SenderFollows, hpc] using h.sender
    have hqueue := h.queue.step (.producer (a.emplace v))
    have hholds := h.queue.holds_step h.holds (.producer (a.emplace v)) (by simp)
    have hmove := emplaceStep_carries (r := s.queue.ring) hcarries a
    have hproducer : (s.queue.step (.producer (a.emplace v))).producer =
      (s.queue.ring.emplaceStep (a.emplace v) s.queue.producer).2.1 := rfl
    rw [← hproducer] at hmove
    generalize (s.queue.ring.emplaceStep (a.emplace v) s.queue.producer).2.2 = returned at hmove ⊢
    cases returned with
    | none =>
      obtain ⟨hpc', haccepted⟩ := hmove
      refine ⟨hqueue, hholds, ⟨?_, ?_⟩, h.receiver⟩
      · show Sent (s.queue.step (.producer (a.emplace v))).producer.accepted s.sender
        rwa [haccepted]
      · simp only [hpc]
        exact ⟨hpc', flag, hsend⟩
    | some ok =>
      obtain ⟨hpc', haccepted⟩ := hmove
      refine ⟨hqueue, hholds, ⟨?_, hpc'⟩, h.receiver⟩
      show Sent (s.queue.step (.producer (a.emplace v))).producer.accepted (t.sent s.sender ok)
      rw [haccepted]
      exact hfollows.sent hsent hsend ok
  case h_2 => exact h

theorem receiveTop : Following t Sent Received (t.step s .receiveTop) := by
  unfold step
  dsimp only
  split
  case h_1 hpc =>
    obtain ⟨hidle, hreceived⟩ : s.queue.consumer.pc = .idle ∧ Received _ _ := by
      simpa only [ReceiverFollows, hpc] using h.receiver
    refine ⟨h.queue, h.holds, h.sender, ?_⟩
    cases hmore : t.more s.receiver s.flag.current with
    | true => exact ⟨⟨_, hmore⟩, hreceived⟩
    | false => exact ⟨hidle, ⟨_, hmore⟩, hreceived⟩
  case h_2 => exact h

theorem pop (a : TakeStep) : Following t Sent Received (t.step s (.pop a)) := by
  unfold step
  dsimp only
  split
  case h_1 hpc =>
    obtain ⟨hmore, hreceived⟩ : (∃ flag, t.more s.receiver flag = true) ∧ Received _ _ := by
      simpa only [ReceiverFollows, hpc] using h.receiver
    have hqueue := h.queue.step (.consumer a.pop)
    have hholds := h.queue.holds_step h.holds (.consumer a.pop) (by cases a <;> simp [TakeStep.pop])
    rcases popStep_returns (r := s.queue.ring) (c := s.queue.consumer) a with
      ⟨hreturns, hret⟩ | ⟨hreturns, hidle, hret⟩ | ⟨out, hreturns, hidle, hret⟩
    · rw [hreturns]
      refine ⟨hqueue, hholds, h.sender, ?_⟩
      simp only [ReceiverFollows, hpc]
      refine ⟨hmore, ?_⟩
      show Received (s.queue.ring.popStep a.pop s.queue.consumer).2.returned s.receiver
      rwa [hret]
    · rw [hreturns]
      exact ⟨hqueue, hholds, h.sender, hidle, hmore, _, hret.trans (List.append_nil _).symm, hreceived⟩
    · rw [hreturns]
      exact ⟨hqueue, hholds, h.sender, hidle, hmore, _, hret, hreceived⟩
  case h_2 => exact h

theorem receiveBody (hfollows : t.Follows Sent Received) : Following t Sent Received (t.step s .receiveBody) := by
  unfold step
  dsimp only
  split
  case h_1 result hpc =>
    obtain ⟨hidle, ⟨flag, hmore⟩, values, hreturned, hreceived⟩ :
        s.queue.consumer.pc = .idle ∧ (∃ flag, t.more s.receiver flag = true) ∧ ∃ values, _ ∧ Received values _ := by
      simpa only [ReceiverFollows, hpc] using h.receiver
    refine ⟨h.queue, h.holds, h.sender, hidle, ?_⟩
    show Received s.queue.consumer.returned (t.received s.receiver result).1
    rw [hreturned]
    exact hfollows.received hreceived hmore result
  case h_2 => exact h

theorem step (hfollows : t.Follows Sent Received) (a : Step) : Following t Sent Received (t.step s a) := by
  cases a with
  | sendTop k => exact h.sendTop k
  | push a => exact h.push hfollows a
  | receiveTop => exact h.receiveTop
  | pop a => exact h.pop a
  | receiveBody => exact h.receiveBody hfollows

theorem run (hfollows : t.Follows Sent Received) (steps : List Step) : Following t Sent Received (t.run s steps) :=
  List.foldlRecOn steps t.step h fun _ hinv a _ => hinv.step hfollows a

theorem returned_prefix : s.queue.consumer.returned <+: s.queue.producer.accepted.map some := by
  have hprefix := h.holds.returned_prefix_published h.queue.ring
  rwa [SpscRingBuffer.take_values] at hprefix

theorem finished (hdone : s.Finished) :
    Sent s.queue.producer.accepted s.sender ∧ (∃ flag, t.send s.sender flag = none) ∧
      Received s.queue.consumer.returned s.receiver ∧ (∃ flag, t.more s.receiver flag = false) ∧
      s.queue.consumer.returned ++ s.queue.ring.contents = s.queue.producer.accepted.map some := by
  have hsender := h.sender
  have hreceiver := h.receiver
  simp only [SenderFollows, hdone.1] at hsender
  simp only [ReceiverFollows, hdone.2] at hreceiver
  obtain ⟨hidle, hmore, hreceived⟩ := hreceiver
  have htaken := h.holds.taken_append_contents h.queue.ring s.queue.length_values
  rw [SpscRingBuffer.take_values, hidle] at htaken
  refine ⟨hsender.1, hsender.2, hreceived, hmore, ?_⟩
  simpa [PopPc.inHand, PopPc.taken] using htaken

end Following
end AetherStream.Transfer
