import AetherStream.Queue.SpscRingBuffer

/-! Safety of `SpscRingBuffer` under every interleaving: values come out in the order they
went in, and no slot is constructed over, read or destroyed at the wrong time. -/

namespace AetherStream.SpscRingBuffer
open Basis ModularCounter
variable {cap : Capacity} {α : Type*} {s : SpscRingBuffer cap α}

theorem length_values (s : SpscRingBuffer cap α) :
    s.values.length = s.producer.accepted.length + s.producer.pc.built.toNat := by
  unfold values
  cases s.producer.pc <;> simp [EmplacePc.pending, EmplacePc.built]

theorem take_values (s : SpscRingBuffer cap α) :
    s.values.take s.producer.accepted.length = s.producer.accepted := List.take_left

theorem Inv.local_step (hinv : s.Inv) {p : Producer α} (hacc : p.accepted = s.producer.accepted)
    (hbuilt : p.pc.built = s.producer.pc.built) (hview : s.producer.tailView ≤ p.tailView)
    (hview' : p.tailView ≤ s.consumer.popped)
    (hat : p.pc.At cap s.producer.accepted.length p.tailView) : Inv { s with producer := p } := by
  refine ⟨?_, hview', ?_, ?_⟩
  · show s.ring.Inv s.consumer p.accepted.length p.pc.built
    rw [hacc, hbuilt]
    exact hinv.ring
  · show p.accepted.length ≤ p.tailView + cap.toNat
    rw [hacc]
    exact hinv.window.trans (Nat.add_le_add_right hview _)
  · show p.pc.At cap p.accepted.length p.tailView
    rw [hacc]
    exact hat

theorem Inv.emplaceStep (hinv : s.Inv) (a : EmplaceStep α) :
    Inv { s with ring := (s.ring.emplaceStep a s.producer).1
                 producer := (s.ring.emplaceStep a s.producer).2.1 } := by
  have hview := hinv.view_le
  unfold Ring.emplaceStep
  split
  case h_1 v hpc =>
    exact hinv.local_step rfl (by rw [hpc]; rfl) le_rfl hview hinv.ring.head_counts.current_eq
  case h_2 v head k hpc =>
    have hhead : head = UInt64.ofNat s.producer.accepted.length := by
      simpa only [hpc, EmplacePc.At] using hinv.pc_at
    split
    · exact hinv
    case h_2 tail hload =>
      obtain ⟨hk, hk', rfl⟩ := hinv.ring.tail_counts.load_eq_some.mp hload
      have hle := hinv.ring.popped_le_head
      have hwin := hinv.window
      split_ifs with hfull
      · exact hinv.local_step rfl (by rw [hpc]; rfl) hk hk' trivial
      · rw [hhead, cap.size_le_sub_iff (hk'.trans hle) (by omega)] at hfull
        have hlt : s.producer.accepted.length < k + cap.toNat := by omega
        exact hinv.local_step rfl (by rw [hpc]; rfl) hk hk' ⟨hhead, hlt⟩
  case h_3 v head hpc =>
    obtain ⟨rfl, hlt⟩ : head = UInt64.ofNat s.producer.accepted.length ∧
        s.producer.accepted.length < s.producer.tailView + cap.toNat := by
      simpa only [hpc, EmplacePc.At] using hinv.pc_at
    have hring := hinv.ring
    rw [hpc] at hring
    exact ⟨hring.construct (by omega) v, hview, hinv.window, rfl, hlt⟩
  case h_4 v head hpc => exact hinv.local_step rfl (by rw [hpc]; rfl) le_rfl hview trivial
  case h_5 v head hpc =>
    obtain ⟨rfl, hlt⟩ : head = UInt64.ofNat s.producer.accepted.length ∧
        s.producer.accepted.length < s.producer.tailView + cap.toNat := by
      simpa only [hpc, EmplacePc.At] using hinv.pc_at
    have hring := hinv.ring
    rw [hpc] at hring
    refine ⟨?_, hview, ?_, trivial⟩
    · simpa only [List.length_append, List.length_singleton, EmplacePc.built] using hring.publish
    · simpa only [List.length_append, List.length_singleton] using Nat.succ_le_of_lt hlt
  case h_6 => exact hinv

theorem Inv.step (hinv : s.Inv) (a : SpscStep α) : (s.step a).Inv := by
  cases a with
  | producer a => exact hinv.emplaceStep a
  | consumer a =>
    refine ⟨hinv.ring.popStep a, ?_, hinv.window, hinv.pc_at⟩
    exact hinv.view_le.trans (Ring.popped_le_popStep a s.ring s.consumer)

theorem inv_run (cap : Capacity) (steps : List (SpscStep α)) : ((initial cap α).run steps).Inv :=
  List.foldlRecOn steps step (inv_initial cap α) fun _ hinv a _ => hinv.step a

theorem Inv.run_tryEmplace (hinv : s.Inv) (hpc : s.producer.pc = .idle) (v : α) :
    let s' := s.run [.producer (.loadHead v), .producer (.loadTail s.consumer.popped), .producer .constructAt,
      .producer .storeHead]
    s'.ring = (s.ring.tryEmplace v).2 ∧ s'.consumer = s.consumer ∧ s'.producer.pc = .idle ∧
      s'.producer.accepted = s.producer.accepted ++ if (s.ring.tryEmplace v).1 then [v] else [] := by
  have hload : s.ring.tail.load s.producer.tailView s.consumer.popped = some s.ring.tail.current :=
    hinv.ring.tail_counts.load_eq_some.mpr ⟨hinv.view_le, le_rfl, hinv.ring.tail_counts.current_eq⟩
  by_cases hfull : cap.size ≤ s.ring.head.current - s.ring.tail.current <;>
    simp [run, SpscRingBuffer.step, Ring.emplaceStep, hpc, hload, Ring.tryEmplace, hfull]

theorem Inv.run_tryPop (hinv : s.Inv) (hpc : s.consumer.pc = .idle) :
    let s' := s.run [.consumer .loadTail, .consumer (.loadHead s.producer.accepted.length), .consumer .moveOut,
      .consumer .destroyAt, .consumer .storeTail]
    s'.ring = s.ring.tryPop.2 ∧ s'.producer = s.producer ∧ s'.consumer.pc = .idle ∧
      s'.consumer.returned = s.consumer.returned ++ s.ring.tryPop.1.toList := by
  have hload : s.ring.head.load s.consumer.headView s.producer.accepted.length = some s.ring.head.current :=
    hinv.ring.head_counts.load_eq_some.mpr ⟨hinv.ring.view_le, le_rfl, hinv.ring.head_counts.current_eq⟩
  by_cases hempty : s.ring.tail.current = s.ring.head.current <;>
    simp [run, SpscRingBuffer.step, Ring.popStep, hpc, hload, Ring.tryPop, hempty]

def Carries (v : α) : EmplacePc α → Prop
  | .idle => True
  | .loadedHead w _ | .hasRoom w _ | .constructed w _ => w = v

/-- Once the producer has seen room, `try_push` cannot find the queue full: the producer
alone fills it, and its view of `tail_` only moves forward. -/
theorem Inv.push_of_room (hinv : s.Inv) {v : α} (hcarries : Carries v s.producer.pc)
    (hroom : s.producer.accepted.length < s.producer.tailView + cap.toNat) (a : PushStep) :
    let p := (s.ring.emplaceStep (a.emplace v) s.producer).2.1
    let result := (s.ring.emplaceStep (a.emplace v) s.producer).2.2
    (result = none ∧ Carries v p.pc ∧ p.accepted = s.producer.accepted ∧
        p.accepted.length < p.tailView + cap.toNat) ∨
      (result = some true ∧ p.pc = .idle ∧ p.accepted = s.producer.accepted ++ [v]) := by
  unfold Ring.emplaceStep
  split
  case h_1 w hpc heq =>
    cases a <;> cases heq
    exact Or.inl ⟨rfl, rfl, rfl, hroom⟩
  case h_2 w head k hpc heq =>
    split
    · exact Or.inl ⟨rfl, hpc ▸ hcarries, rfl, hroom⟩
    case h_2 tail hload =>
      obtain ⟨hk, hk', rfl⟩ := hinv.ring.tail_counts.load_eq_some.mp hload
      have hle := hinv.ring.popped_le_head
      obtain rfl : head = UInt64.ofNat s.producer.accepted.length := by
        simpa only [hpc, EmplacePc.At] using hinv.pc_at
      rw [if_neg (by rw [cap.size_le_sub_iff (hk'.trans hle) (by omega)]; omega)]
      rw [hpc] at hcarries
      exact Or.inl ⟨rfl, hcarries, rfl, hroom.trans_le (Nat.add_le_add_right hk _)⟩
  case h_3 w head hpc heq =>
    rw [hpc] at hcarries
    exact Or.inl ⟨rfl, hcarries, rfl, hroom⟩
  case h_4 heq => cases a <;> cases heq
  case h_5 w head hpc heq =>
    rw [hpc] at hcarries
    obtain rfl : w = v := hcarries
    exact Or.inr ⟨rfl, rfl, rfl⟩
  case h_6 => exact Or.inl ⟨rfl, hcarries, rfl, hroom⟩

theorem slot_lifetimes (cap : Capacity) (steps : List (SpscStep α)) :
    let s := (initial cap α).run steps
    let size := (s.ring.head.current - s.ring.tail.current).toNat
    (∀ a ∈ s.ring.buffer.log, a.legal = true) ∧
    (s.Idle →
      (∀ i, (s.ring.buffer.slots i).isLive = true ↔
        ∃ k < size, cap.slotPtr (s.ring.tail.current + UInt64.ofNat k) = i) ∧
      (∀ j < size, ∀ k < size, cap.slotPtr (s.ring.tail.current + UInt64.ofNat j) =
        cap.slotPtr (s.ring.tail.current + UInt64.ofNat k) → j = k) ∧
      ∀ fuel, cap.toNat < fuel → ∃ st, s.ring.destroyRemaining fuel = some st ∧
        (∀ a ∈ st.log, a.legal = true) ∧ ∀ i, (st.slots i).isLive = false) := by
  intro s size
  have hinv : s.Inv := inv_run cap steps
  refine ⟨hinv.ring.lawful, ?_⟩
  rintro ⟨hprod, hcons⟩
  have hring := hinv.ring
  rw [hprod] at hring
  have hle := hring.popped_le_head
  have hroom : s.producer.accepted.length ≤ s.consumer.popped + cap.toNat := hring.room
  have hlt := cap.toNat_lt
  have hsize : size = s.producer.accepted.length - s.consumer.popped := by
    simp only [size, hring.head_counts.current_eq, hring.tail_counts.current_eq]
    exact toNat_ofNat_sub hle (by omega)
  have hslot (k : Nat) : cap.slotPtr (s.ring.tail.current + UInt64.ofNat k) =
      Fin.ofNat cap.toNat (s.consumer.popped + k) := by
    rw [hring.tail_counts.current_eq, ofNat_add, Capacity.slotPtr_ofNat]
  have hlive (i : Nat) (hi : s.consumer.popped ≤ i) (hi' : i < s.consumer.popped + cap.toNat) :
      (s.ring.slotAt i).isLive = true ↔ i < s.producer.accepted.length := by
    rw [hring.live i hi hi', hcons]
    simp only [PopPc.reclaimed, EmplacePc.built, Bool.toNat_false]
    omega
  refine ⟨fun i => ?_, fun j hj k hk h => ?_, fun fuel hfuel => ?_⟩
  · constructor
    · intro hi
      obtain ⟨j, hj, hj', rfl⟩ := exists_wrap_eq s.consumer.popped i
      have hjh := (hlive j hj hj').mp hi
      refine ⟨j - s.consumer.popped, by omega, ?_⟩
      rw [hslot, Nat.add_sub_cancel' hj]
    · rintro ⟨k, hk, rfl⟩
      rw [hslot]
      exact (hlive _ (by omega) (by omega)).mpr (by omega)
  · rw [hslot, hslot] at h
    have heq := (wrap_inj (t := s.consumer.popped) (by omega) (by omega) (by omega) (by omega)).mp h
    omega
  · obtain ⟨st, hst, hraw, hlaw, -, -⟩ := hring.destroyRemaining hcons hfuel
    exact ⟨st, hst, hlaw, fun i => by simp [hraw i, Slot.isLive, Slot.object]⟩

def onePush (v : α) : List (SpscStep α) :=
  [.producer (.loadHead v), .producer (.loadTail 0), .producer .constructAt, .producer .storeHead]

theorem slot_lifetimes_onePush :
    let s := (initial .least Nat).run (onePush 7)
    s.Idle ∧ (s.ring.buffer.slots 0).isLive = true ∧ (s.ring.buffer.slots 1).isLive = false ∧
      ∃ st, s.ring.destroyRemaining 3 = some st ∧ ∀ i, (st.slots i).isLive = false := by
  have hidle : ((initial .least Nat).run (onePush 7)).Idle := ⟨rfl, rfl⟩
  obtain ⟨-, -, hdestroy⟩ := (slot_lifetimes .least (onePush 7)).2 hidle
  obtain ⟨st, hst, -, hraw⟩ := hdestroy 3 (by decide)
  exact ⟨hidle, rfl, rfl, st, hst, hraw⟩

theorem Inv.holds_emplaceStep (hinv : s.Inv) (hold : s.ring.Holds s.consumer s.values)
    (a : EmplaceStep α) :
    (s.ring.emplaceStep a s.producer).1.Holds s.consumer
      ((s.ring.emplaceStep a s.producer).2.1.accepted ++
        (s.ring.emplaceStep a s.producer).2.1.pc.pending) := by
  unfold values at hold
  unfold Ring.emplaceStep
  split
  case h_1 v hpc => simpa only [hpc, EmplacePc.pending] using hold
  case h_2 v head k hpc =>
    split
    · exact hold
    · split_ifs <;> simpa only [hpc, EmplacePc.pending] using hold
  case h_3 v head hpc =>
    obtain ⟨rfl, hlt⟩ : head = UInt64.ofNat s.producer.accepted.length ∧
        s.producer.accepted.length < s.producer.tailView + cap.toNat := by
      simpa only [hpc, EmplacePc.At] using hinv.pc_at
    have hring := hinv.ring
    have hview := hinv.view_le
    rw [hpc] at hring hold
    simp only [EmplacePc.pending, List.append_nil] at hold
    exact hold.construct hring rfl (by omega) v
  case h_4 v head hpc => simpa only [hpc, EmplacePc.pending] using hold
  case h_5 v head hpc =>
    rw [hpc] at hold
    simp only [EmplacePc.pending, List.append_nil] at hold ⊢
    exact ⟨hold.returned, hold.inHand, hold.value⟩
  case h_6 => exact hold

theorem Inv.holds_step (hinv : s.Inv) (hold : s.ring.Holds s.consumer s.values) (a : SpscStep α)
    (ha : ∀ residue, a ≠ .consumer (.moveThrows residue)) :
    (s.step a).ring.Holds (s.step a).consumer (s.step a).values := by
  cases a with
  | producer a => exact hinv.holds_emplaceStep hold a
  | consumer a =>
    refine hold.popStep hinv.ring s.length_values a fun residue h => ?_
    exact ha residue (congrArg SpscStep.consumer h)

theorem Inv.holds_run (hinv : s.Inv) (hold : s.ring.Holds s.consumer s.values) (steps : List (SpscStep α))
    (hsteps : ∀ residue, SpscStep.consumer (.moveThrows residue) ∉ steps) :
    (s.run steps).Inv ∧ (s.run steps).ring.Holds (s.run steps).consumer (s.run steps).values := by
  refine List.foldlRecOn (motive := fun s : SpscRingBuffer cap α => s.Inv ∧ s.ring.Holds s.consumer s.values)
    steps SpscRingBuffer.step ⟨hinv, hold⟩ ?_
  rintro s ⟨hinv, hold⟩ a ha
  exact ⟨hinv.step a, hinv.holds_step hold a fun residue h => hsteps residue (h ▸ ha)⟩

/-- What `try_pop` has returned is always a prefix of what `try_push` has accepted. -/
theorem returned_prefix_accepted (cap : Capacity) (steps : List (SpscStep α))
    (hsteps : ∀ residue, SpscStep.consumer (.moveThrows residue) ∉ steps) :
    let s := (initial cap α).run steps
    s.consumer.returned <+: s.producer.accepted.map some ∧
      s.consumer.returned.length ≤ s.producer.accepted.length ∧
      s.producer.accepted.length - s.consumer.returned.length ≤ cap.toNat := by
  intro s
  obtain ⟨hinv, hold⟩ : s.Inv ∧ s.ring.Holds s.consumer s.values :=
    (inv_initial cap α).holds_run (Ring.holds_empty cap α) steps hsteps
  refine ⟨?_, hinv.ring.popped_le_head, ?_⟩
  · have hreturned := hold.returned_prefix_published hinv.ring
    rwa [take_values] at hreturned
  · have hroom := hinv.ring.room
    show s.producer.accepted.length - s.consumer.popped ≤ cap.toNat
    omega

def onePop : List (SpscStep α) :=
  [.consumer .loadTail, .consumer (.loadHead 1), .consumer .moveOut, .consumer .destroyAt, .consumer .storeTail]

theorem returned_prefix_accepted_onePop :
    let s := (initial .least Nat).run (onePush 7 ++ onePush 8 ++ onePop)
    s.consumer.returned = [some 7] ∧ s.producer.accepted = [7, 8] ∧
      s.consumer.returned <+: s.producer.accepted.map some := by
  refine ⟨rfl, rfl, (returned_prefix_accepted .least (onePush 7 ++ onePush 8 ++ onePop) ?_).1⟩
  simp [onePush, onePop]

end AetherStream.SpscRingBuffer
