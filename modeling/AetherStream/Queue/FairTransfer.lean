import AetherStream.Basis.Fairness
import AetherStream.Queue.Transfer

/-! A transfer comes to its end under every fair schedule whose loads read the newest stores:
what is left to push and to pop, with the distance of the thread whose turn helps from its next
success, falls. -/

namespace AetherStream
open Basis ModularCounter

def EmplacePc.next {α : Type*} (newest : Nat) : EmplacePc α → PushStep
  | .idle => .loadHead
  | .loadedHead _ _ => .loadTail newest
  | .hasRoom _ _ => .constructAt
  | .constructed _ _ => .storeHead

def PopPc.next {α : Type*} (newest : Nat) : PopPc α → TakeStep
  | .idle => .loadTail
  | .loadedTail _ => .loadHead newest
  | .nonEmpty _ => .moveOut
  | .movedOut _ _ => .destroyAt
  | .destroyed _ _ => .storeTail

def EmplacePc.rank {α : Type*} : EmplacePc α → Nat
  | .idle => 5
  | .loadedHead _ _ => 4
  | .hasRoom _ _ => 3
  | .constructed _ _ => 2

def PopPc.rank {α : Type*} : PopPc α → Nat
  | .idle => 6
  | .loadedTail _ => 5
  | .nonEmpty _ => 4
  | .movedOut _ _ => 3
  | .destroyed _ _ => 2

namespace SpscRingBuffer
variable {cap : Capacity} {α : Type*} {s : SpscRingBuffer cap α}

theorem Inv.emplaceStep_next (hinv : s.Inv) {v : α} (hcarries : Carries v s.producer.pc)
    (hroom : s.producer.accepted.length < s.consumer.popped + cap.toNat) :
    let result := s.ring.emplaceStep ((s.producer.pc.next s.ring.tail.stores.length).emplace v) s.producer
    (result.2.2 = none ∧ result.2.1.pc.rank < s.producer.pc.rank ∧ result.2.1.accepted = s.producer.accepted) ∨
      (result.2.2 = some true ∧ result.2.1.accepted = s.producer.accepted ++ [v]) := by
  intro result
  cases hpc : s.producer.pc with
  | idle =>
    refine Or.inl ?_
    simp only [result, Ring.emplaceStep, hpc, EmplacePc.next, PushStep.emplace, EmplacePc.rank]
    decide
  | loadedHead w head =>
    have hload : s.ring.tail.load s.producer.tailView s.consumer.popped = some (UInt64.ofNat s.consumer.popped) :=
      hinv.ring.tail_counts.load_eq_some.mpr ⟨hinv.view_le, le_rfl, rfl⟩
    have hle := hinv.ring.popped_le_head
    obtain rfl : head = UInt64.ofNat s.producer.accepted.length := by
      simpa only [hpc, EmplacePc.At] using hinv.pc_at
    have hnot : ¬ cap.size ≤ UInt64.ofNat s.producer.accepted.length - UInt64.ofNat s.consumer.popped := by
      rw [cap.size_le_sub_iff hle hroom.le]
      omega
    refine Or.inl ?_
    simp only [result, Ring.emplaceStep, hpc, EmplacePc.next, PushStep.emplace, EmplacePc.rank,
      hinv.ring.tail_counts.length_stores, hload, if_neg hnot]
    decide
  | hasRoom w head =>
    refine Or.inl ?_
    simp only [result, Ring.emplaceStep, hpc, EmplacePc.next, PushStep.emplace, EmplacePc.rank]
    decide
  | constructed w head =>
    rw [hpc] at hcarries
    obtain rfl : w = v := hcarries
    refine Or.inr ?_
    simp [result, Ring.emplaceStep, hpc, EmplacePc.next, PushStep.emplace]

theorem Inv.popStep_next (hinv : s.Inv) (hne : s.consumer.popped < s.producer.accepted.length) :
    let a : TakeStep := s.consumer.pc.next s.ring.head.stores.length
    let c := (s.ring.popStep a.pop s.consumer).2
    (s.ring.popReturns a.pop s.consumer = [] ∧ c.pc.rank < s.consumer.pc.rank ∧ c.returned = s.consumer.returned) ∨
      ∃ out, s.ring.popReturns a.pop s.consumer = [.popped out] ∧ c.returned = s.consumer.returned ++ [out] := by
  intro a c
  cases hpc : s.consumer.pc with
  | idle =>
    refine Or.inl ?_
    simp only [a, c, Ring.popReturns, Ring.popStep, hpc, PopPc.next, TakeStep.pop, PopPc.rank]
    decide
  | loadedTail tail =>
    have hload : s.ring.head.load s.consumer.headView s.producer.accepted.length =
        some (UInt64.ofNat s.producer.accepted.length) :=
      hinv.ring.head_counts.load_eq_some.mpr ⟨hinv.ring.view_le, le_rfl, rfl⟩
    have hroom := hinv.ring.room
    have hlt := cap.toNat_lt
    obtain rfl : tail = UInt64.ofNat s.consumer.popped := by
      simpa only [hpc, PopPc.At] using hinv.ring.pc_at
    have hnot : ¬ UInt64.ofNat s.consumer.popped = UInt64.ofNat s.producer.accepted.length := by
      rw [ofNat_eq_iff (by omega) (by omega)]
      omega
    refine Or.inl ?_
    simp only [a, c, Ring.popReturns, Ring.popStep, hpc, PopPc.next, TakeStep.pop, PopPc.rank,
      hinv.ring.head_counts.length_stores, hload, if_neg hnot]
    decide
  | nonEmpty tail =>
    refine Or.inl ?_
    simp only [a, c, Ring.popReturns, Ring.popStep, hpc, PopPc.next, TakeStep.pop, PopPc.rank]
    decide
  | movedOut tail out =>
    refine Or.inl ?_
    simp only [a, c, Ring.popReturns, Ring.popStep, hpc, PopPc.next, TakeStep.pop, PopPc.rank]
    decide
  | destroyed tail out =>
    refine Or.inr ⟨out, ?_⟩
    simp [a, c, Ring.popReturns, Ring.popStep, hpc, PopPc.next, TakeStep.pop]

end SpscRingBuffer

namespace Transfer
variable {cap : Capacity} {α β γ φ : Type*}

inductive Thread where
  | sender
  | receiver
  deriving DecidableEq, Repr

/-- What a thread does at its turn, reading the newest stores. -/
def State.next (s : State cap α β γ φ) : Thread → Step
  | .sender =>
    match s.senderPc with
    | .calling _ => .push (s.queue.producer.pc.next s.queue.ring.tail.stores.length)
    | _ => .sendTop s.flag.stores.length
  | .receiver =>
    match s.receiverPc with
    | .calling => .pop (s.queue.consumer.pc.next s.queue.ring.head.stores.length)
    | .returned _ => .receiveBody
    | _ => .receiveTop

def turn (t : Transfer α β γ φ) (s : State cap α β γ φ) (i : Thread) : State cap α β γ φ := t.step s (s.next i)

def SenderPc.pending : SenderPc α → Nat
  | .done => 0
  | _ => 1

def ReceiverPc.pending : ReceiverPc α → Nat
  | .done => 0
  | _ => 1

def State.senderRank (s : State cap α β γ φ) : Nat :=
  match s.senderPc with
  | .top => 6
  | .calling _ => s.queue.producer.pc.rank
  | .done => 0

def State.receiverRank (s : State cap α β γ φ) : Nat :=
  match s.receiverPc with
  | .returned _ => 8
  | .top => 7
  | .calling => s.queue.consumer.pc.rank
  | .done => 0

theorem State.senderRank_lt (s : State cap α β γ φ) : s.senderRank < 16 := by
  unfold senderRank
  split
  · decide
  · unfold EmplacePc.rank
    split <;> decide
  · decide

theorem State.receiverRank_lt (s : State cap α β γ φ) : s.receiverRank < 16 := by
  unfold receiverRank
  split
  · decide
  · decide
  · unfold PopPc.rank
    split <;> decide
  · decide

namespace Spec
variable {t : Transfer α β γ φ} (spec : t.Spec)

def left (s : State cap α β γ φ) : Nat :=
  (spec.total - s.queue.producer.accepted.length) + (spec.total - s.queue.consumer.popped) +
    s.senderPc.pending + s.receiverPc.pending

/-- The receiver can go on if there is a value for it or if it has them all; otherwise the queue
is empty and the sender can. -/
def helpful (s : State cap α β γ φ) : Thread :=
  if s.receiverPc.pending = 1 ∧
      (s.queue.consumer.popped < s.queue.producer.accepted.length ∨
        s.queue.consumer.popped = spec.total) then .receiver
  else .sender

def rank (s : State cap α β γ φ) : Nat :=
  16 * spec.left s + match spec.helpful s with
    | .sender => s.senderRank
    | .receiver => s.receiverRank

variable {spec} {s s' : State cap α β γ φ}

theorem rank_lt_of_left_lt (h : spec.left s' < spec.left s) : spec.rank s' < spec.rank s := by
  have hsender := s'.senderRank_lt
  have hreceiver := s'.receiverRank_lt
  unfold rank
  cases spec.helpful s' <;> dsimp only <;> omega

structure SenderMoves (s s' : State cap α β γ φ) : Prop where
  consumer : s'.queue.consumer = s.queue.consumer
  receiverPc : s'.receiverPc = s.receiverPc
  accepted : s.queue.producer.accepted.length ≤ s'.queue.producer.accepted.length
  pending : s'.senderPc.pending ≤ s.senderPc.pending

structure ReceiverMoves (s s' : State cap α β γ φ) : Prop where
  producer : s'.queue.producer = s.queue.producer
  senderPc : s'.senderPc = s.senderPc
  popped : s.queue.consumer.popped ≤ s'.queue.consumer.popped
  pending : s'.receiverPc.pending ≤ s.receiverPc.pending

theorem accepted_le_emplaceStep (a : EmplaceStep α) (r : Ring cap α) (p : Producer α) :
    p.accepted.length ≤ (r.emplaceStep a p).2.1.accepted.length := by
  have hmove := r.emplaceMove a p
  generalize r.emplaceStep a p = result at hmove ⊢
  obtain ⟨r', p', returned⟩ := result
  dsimp only at hmove ⊢
  cases hmove <;> simp

theorem senderMoves_sendTop (s : State cap α β γ φ) (k : Nat) : SenderMoves s (t.step s (.sendTop k)) := by
  unfold Transfer.step
  dsimp only
  split
  case h_1 flag hpc hload =>
    refine ⟨rfl, rfl, le_rfl, ?_⟩
    rw [hpc]
    cases t.send s.sender flag <;> simp [SenderPc.pending]
  case h_2 => exact ⟨rfl, rfl, le_rfl, le_rfl⟩

theorem senderMoves_push (s : State cap α β γ φ) (a : PushStep) : SenderMoves s (t.step s (.push a)) := by
  unfold Transfer.step
  dsimp only
  split
  case h_1 v hpc =>
    have hle := accepted_le_emplaceStep (a.emplace v) s.queue.ring s.queue.producer
    split
    · exact ⟨rfl, rfl, hle, le_rfl⟩
    · refine ⟨rfl, rfl, hle, ?_⟩
      rw [hpc]
      exact le_rfl
  case h_2 => exact ⟨rfl, rfl, le_rfl, le_rfl⟩

theorem senderMoves_turn (s : State cap α β γ φ) : SenderMoves s (t.turn s .sender) := by
  unfold turn State.next
  cases s.senderPc with
  | calling v => exact senderMoves_push s _
  | top => exact senderMoves_sendTop s _
  | done => exact senderMoves_sendTop s _

theorem receiverMoves_receiveTop (s : State cap α β γ φ) : ReceiverMoves s (t.step s .receiveTop) := by
  unfold Transfer.step
  dsimp only
  split
  case h_1 hpc =>
    refine ⟨rfl, rfl, le_rfl, ?_⟩
    rw [hpc]
    cases t.more s.receiver s.flag.current <;> simp [ReceiverPc.pending]
  case h_2 => exact ⟨rfl, rfl, le_rfl, le_rfl⟩

theorem receiverMoves_pop (s : State cap α β γ φ) (a : TakeStep) : ReceiverMoves s (t.step s (.pop a)) := by
  unfold Transfer.step
  dsimp only
  split
  case h_1 hpc =>
    have hle := Ring.popped_le_popStep a.pop s.queue.ring s.queue.consumer
    split
    · exact ⟨rfl, rfl, hle, by rw [hpc]; exact le_rfl⟩
    · exact ⟨rfl, rfl, hle, by rw [hpc]; exact le_rfl⟩
    · exact ⟨rfl, rfl, hle, le_rfl⟩
  case h_2 => exact ⟨rfl, rfl, le_rfl, le_rfl⟩

theorem receiverMoves_receiveBody (s : State cap α β γ φ) : ReceiverMoves s (t.step s .receiveBody) := by
  unfold Transfer.step
  dsimp only
  split
  case h_1 result hpc => exact ⟨rfl, rfl, le_rfl, by rw [hpc]; exact le_rfl⟩
  case h_2 => exact ⟨rfl, rfl, le_rfl, le_rfl⟩

theorem receiverMoves_turn (s : State cap α β γ φ) : ReceiverMoves s (t.turn s .receiver) := by
  unfold turn State.next
  cases s.receiverPc with
  | calling => exact receiverMoves_pop s _
  | returned result => exact receiverMoves_receiveBody s
  | top => exact receiverMoves_receiveTop s
  | done => exact receiverMoves_receiveTop s

theorem Inv.sender_turn (h : spec.Inv s) (hlive : s.senderPc ≠ .done)
    (hready : s.queue.producer.accepted.length < spec.total →
      s.queue.producer.accepted.length < s.queue.consumer.popped + cap.toNat) :
    let s' := t.turn s .sender
    spec.left s' < spec.left s ∨ spec.left s' = spec.left s ∧ s'.senderRank < s.senderRank := by
  have hat := h.sender
  intro s'
  cases hpc : s.senderPc with
  | done => exact absurd hpc hlive
  | top =>
    simp only [SenderAt, hpc] at hat
    have hload : s.flag.load s.flagView s.flag.stores.length = some spec.flag := by
      rw [h.flag, h.flagView]
      rfl
    have hturn : s' = { s with
        senderPc := (t.send s.sender spec.flag).elim .done .calling, flagView := s.flag.stores.length } := by
      simp only [s', turn, State.next, Transfer.step, hpc, hload]
    rw [hturn, spec.send_eq h.sent h.le_total]
    split_ifs with hlt
    · refine Or.inr ⟨?_, ?_⟩
      · simp [left, hpc, SenderPc.pending]
      · simp [State.senderRank, hpc, hat, EmplacePc.rank]
    · refine Or.inl ?_
      simp only [left, hpc, SenderPc.pending, Option.elim_none]
      omega
  | calling v =>
    simp only [SenderAt, hpc] at hat
    obtain ⟨hlt, -, hcarries⟩ := hat
    have hnext := h.queue.emplaceStep_next hcarries (hready hlt)
    have hturn : s' = t.step s (.push (s.queue.producer.pc.next s.queue.ring.tail.stores.length)) := by
      simp only [s', turn, State.next, hpc]
    rw [hturn]
    generalize s.queue.producer.pc.next s.queue.ring.tail.stores.length = a at hnext ⊢
    have hproducer : (s.queue.step (.producer (a.emplace v))).producer =
      (s.queue.ring.emplaceStep (a.emplace v) s.queue.producer).2.1 := rfl
    rcases hnext with ⟨hreturned, hrank, haccepted⟩ | ⟨hreturned, haccepted⟩
    · refine Or.inr ?_
      simp only [Transfer.step, hpc, hreturned, left, State.senderRank, hproducer, haccepted]
      exact ⟨rfl, hrank⟩
    · refine Or.inl ?_
      simp only [Transfer.step, hpc, hreturned, left, hproducer, haccepted, List.length_append, List.length_singleton,
        SenderPc.pending]
      have hconsumer : (s.queue.step (.producer (a.emplace v))).consumer = s.queue.consumer := rfl
      rw [hconsumer]
      omega

theorem Inv.receiver_turn (h : spec.Inv s) (hlive : s.receiverPc ≠ .done)
    (hready : s.queue.consumer.popped < spec.total →
      s.queue.consumer.popped < s.queue.producer.accepted.length) :
    let s' := t.turn s .receiver
    spec.left s' < spec.left s ∨ spec.left s' = spec.left s ∧ s'.receiverRank < s.receiverRank := by
  have hat := h.receiver
  intro s'
  cases hpc : s.receiverPc with
  | done => exact absurd hpc hlive
  | returned result =>
    refine Or.inr ?_
    simp only [s', turn, State.next, Transfer.step, hpc, left, State.receiverRank, ReceiverPc.pending]
    decide
  | top =>
    simp only [ReceiverAt, hpc] at hat
    obtain ⟨hidle, hreceived⟩ := hat
    have hturn : s' = { s with receiverPc := if t.more s.receiver s.flag.current then .calling else .done } := by
      simp only [s', turn, State.next, Transfer.step, hpc]
    rw [hturn, h.current_flag, spec.more_eq hreceived h.popped_le]
    by_cases hlt : s.queue.consumer.popped < spec.total
    · refine Or.inr ?_
      rw [decide_eq_true hlt, if_pos rfl]
      simp [left, State.receiverRank, hpc, ReceiverPc.pending, hidle, PopPc.rank]
    · refine Or.inl ?_
      rw [decide_eq_false hlt, if_neg (by decide)]
      simp only [left, hpc, ReceiverPc.pending]
      omega
  | calling =>
    simp only [ReceiverAt, hpc] at hat
    have hnext := h.queue.popStep_next (hready hat.1)
    have hturn : s' = t.step s (.pop (s.queue.consumer.pc.next s.queue.ring.head.stores.length)) := by
      simp only [s', turn, State.next, hpc]
    rw [hturn]
    generalize s.queue.consumer.pc.next s.queue.ring.head.stores.length = a at hnext ⊢
    have hproducer : (s.queue.step (.consumer a.pop)).producer = s.queue.producer := rfl
    have hconsumer : (s.queue.step (.consumer a.pop)).consumer = (s.queue.ring.popStep a.pop s.queue.consumer).2 := rfl
    rcases hnext with ⟨hreturns, hrank, hreturned⟩ | ⟨out, hreturns, hreturned⟩
    · refine Or.inr ?_
      simp only [Transfer.step, hpc, hreturns, left, State.receiverRank, hproducer, hconsumer, Consumer.popped,
        hreturned]
      exact ⟨trivial, hrank⟩
    · refine Or.inl ?_
      have hlt := hat.1
      simp only [Consumer.popped] at hlt
      simp only [Transfer.step, hpc, hreturns, left, hproducer, hconsumer, Consumer.popped, hreturned,
        List.length_append, List.length_singleton, ReceiverPc.pending]
      omega

theorem helpful_eq (haccepted : s'.queue.producer.accepted.length = s.queue.producer.accepted.length)
    (hpopped : s'.queue.consumer.popped = s.queue.consumer.popped)
    (hpending : s'.receiverPc.pending = s.receiverPc.pending) : spec.helpful s' = spec.helpful s := by
  unfold helpful
  rw [haccepted, hpopped, hpending]

theorem SenderMoves.left_cases (hmoves : SenderMoves s s') (h' : spec.Inv s') :
    spec.left s' < spec.left s ∨ spec.left s' = spec.left s ∧ spec.helpful s' = spec.helpful s := by
  have hpopped : s'.queue.consumer.popped = s.queue.consumer.popped := by rw [hmoves.consumer]
  have hpending : s'.receiverPc.pending = s.receiverPc.pending := by rw [hmoves.receiverPc]
  have haccepted := hmoves.accepted
  have hsender := hmoves.pending
  have hle := h'.le_total
  by_cases hsame : s'.queue.producer.accepted.length = s.queue.producer.accepted.length ∧
      s'.senderPc.pending = s.senderPc.pending
  · refine Or.inr ⟨?_, helpful_eq hsame.1 hpopped hpending⟩
    rw [left, left, hsame.1, hsame.2, hpopped, hpending]
  · refine Or.inl ?_
    rw [left, left, hpopped, hpending]
    omega

theorem ReceiverMoves.left_cases (hmoves : ReceiverMoves s s') (h' : spec.Inv s') :
    spec.left s' < spec.left s ∨ spec.left s' = spec.left s ∧ spec.helpful s' = spec.helpful s := by
  have haccepted : s'.queue.producer.accepted.length = s.queue.producer.accepted.length := by rw [hmoves.producer]
  have hsender : s'.senderPc.pending = s.senderPc.pending := by rw [hmoves.senderPc]
  have hpopped := hmoves.popped
  have hpending := hmoves.pending
  have hle := h'.popped_le
  by_cases hsame : s'.queue.consumer.popped = s.queue.consumer.popped ∧
      s'.receiverPc.pending = s.receiverPc.pending
  · refine Or.inr ⟨?_, helpful_eq haccepted hsame.1 hsame.2⟩
    rw [left, left, hsame.1, hsame.2, haccepted, hsender]
  · refine Or.inl ?_
    rw [left, left, haccepted, hsender]
    omega

theorem receiver_ready (hhelpful : spec.helpful s = .receiver) :
    s.receiverPc ≠ .done ∧ (s.queue.consumer.popped < spec.total →
      s.queue.consumer.popped < s.queue.producer.accepted.length) := by
  unfold helpful at hhelpful
  split_ifs at hhelpful with hcond
  refine ⟨fun hdone => ?_, fun hlt => ?_⟩
  · rw [hdone] at hcond
    exact absurd hcond.1 Nat.zero_ne_one
  · exact hcond.2.resolve_right (by omega)

theorem Inv.sender_ready (h : spec.Inv s) (hhelpful : spec.helpful s = .sender) (hrun : ¬ s.Finished) :
    s.senderPc ≠ .done ∧ (s.queue.producer.accepted.length < spec.total →
      s.queue.producer.accepted.length < s.queue.consumer.popped + cap.toNat) := by
  unfold helpful at hhelpful
  split_ifs at hhelpful with hcond
  have hle := h.queue.ring.popped_le_head
  have hcap := cap.two_le_toNat
  by_cases hreceiver : s.receiverPc = .done
  · -- it has popped everything, so everything was pushed
    obtain ⟨-, hpopped, -⟩ : _ ∧ s.queue.consumer.popped = spec.total ∧ _ := by
      simpa only [ReceiverAt, hreceiver] using h.receiver
    exact ⟨fun hsender => hrun ⟨hsender, hreceiver⟩, fun hlt => by omega⟩
  · have hpending : s.receiverPc.pending = 1 := by
      cases hpc : s.receiverPc <;> first | rfl | exact absurd hpc hreceiver
    rw [hpending] at hcond
    push Not at hcond
    obtain ⟨hempty, hnot⟩ := hcond rfl
    refine ⟨fun hsender => ?_, fun _ => by omega⟩
    obtain ⟨-, hall⟩ : _ ∧ s.queue.producer.accepted.length = spec.total := by
      simpa only [SenderAt, hsender] using h.sender
    omega

theorem Inv.falls (h : spec.Inv s) (hrun : ¬ s.Finished) (i : Thread) : Falls t.turn spec.rank spec.helpful s i := by
  have h' : spec.Inv (t.turn s i) := h.step _
  cases i with
  | sender =>
    have hmoves := senderMoves_turn (t := t) s
    rcases hmoves.left_cases h' with hlt | ⟨hleft, hhelpful⟩
    · exact Or.inl (rank_lt_of_left_lt hlt)
    cases hturn : spec.helpful s with
    | sender =>
      obtain ⟨hlive, hready⟩ := h.sender_ready hturn hrun
      rcases h.sender_turn hlive hready with hlt | ⟨-, hrank⟩
      · exact Or.inl (rank_lt_of_left_lt hlt)
      · refine Or.inl ?_
        rw [rank, rank, hleft, hhelpful, hturn]
        exact Nat.add_lt_add_left hrank _
    | receiver =>
      have hrank : (t.turn s .sender).receiverRank = s.receiverRank := by
        rw [State.receiverRank, State.receiverRank, hmoves.receiverPc, hmoves.consumer]
      refine Or.inr ⟨by rw [hturn]; decide, ?_, hhelpful⟩
      rw [rank, rank, hleft, hhelpful, hturn]
      exact congrArg (16 * spec.left s + ·) hrank
  | receiver =>
    have hmoves := receiverMoves_turn (t := t) s
    rcases hmoves.left_cases h' with hlt | ⟨hleft, hhelpful⟩
    · exact Or.inl (rank_lt_of_left_lt hlt)
    cases hturn : spec.helpful s with
    | receiver =>
      obtain ⟨hlive, hready⟩ := receiver_ready hturn
      rcases h.receiver_turn hlive hready with hlt | ⟨-, hrank⟩
      · exact Or.inl (rank_lt_of_left_lt hlt)
      · refine Or.inl ?_
        rw [rank, rank, hleft, hhelpful, hturn]
        exact Nat.add_lt_add_left hrank _
    | sender =>
      have hrank : (t.turn s .receiver).senderRank = s.senderRank := by
        rw [State.senderRank, State.senderRank, hmoves.senderPc, hmoves.producer]
      refine Or.inr ⟨by rw [hturn]; decide, ?_, hhelpful⟩
      rw [rank, rank, hleft, hhelpful, hturn]
      exact congrArg (16 * spec.left s + ·) hrank

theorem Inv.eventually_finished (h : spec.Inv s) {schedule : Nat → Thread} (hfair : Fair schedule) :
    ∃ n, spec.Inv (stateAt t.turn s schedule n) ∧ (stateAt t.turn s schedule n).Finished := by
  obtain ⟨n, hfinished⟩ := hfair.eventually (I := spec.Inv) (fun _ _ hinv => hinv.step _)
    (fun _ i hinv hrun => hinv.falls hrun i) h
  exact ⟨n, stateAt_induction (fun _ _ hinv => hinv.step _) h schedule n, hfinished⟩

end Spec
end Transfer
end AetherStream
