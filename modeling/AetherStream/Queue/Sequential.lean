import AetherStream.Queue.SpscSafety

/-! The ring as its sequential users see it: between calls it is a list of values, of which
the first ones have been taken out. -/

namespace AetherStream.Ring
open Basis ModularCounter
variable {cap : Capacity} {α : Type*}

def Rests (r : Ring cap α) (accepted : List α) (popped : Nat) : Prop :=
  ∃ s : SpscRingBuffer cap α, s.Inv ∧ s.ring.Holds s.consumer s.values ∧ s.Idle ∧ s.ring = r ∧
    s.producer.accepted = accepted ∧ s.consumer.popped = popped

theorem rests_empty (cap : Capacity) (α : Type*) : (empty cap α).Rests [] 0 :=
  ⟨.initial cap α, SpscRingBuffer.inv_initial cap α, holds_empty cap α, ⟨rfl, rfl⟩, rfl, rfl, rfl⟩

namespace Rests
variable {r : Ring cap α} {accepted : List α} {popped : Nat}

theorem popped_le (h : r.Rests accepted popped) : popped ≤ accepted.length := by
  obtain ⟨s, hinv, -, -, rfl, rfl, rfl⟩ := h
  exact hinv.ring.popped_le_head

theorem length_le (h : r.Rests accepted popped) : accepted.length ≤ popped + cap.toNat := by
  obtain ⟨s, hinv, -, -, rfl, rfl, rfl⟩ := h
  have := hinv.ring.room
  omega

theorem head_eq (h : r.Rests accepted popped) : r.head.current = UInt64.ofNat accepted.length := by
  obtain ⟨s, hinv, -, -, rfl, rfl, rfl⟩ := h
  exact hinv.ring.head_counts.current_eq

theorem tail_eq (h : r.Rests accepted popped) : r.tail.current = UInt64.ofNat popped := by
  obtain ⟨s, hinv, -, -, rfl, rfl, rfl⟩ := h
  exact hinv.ring.tail_counts.current_eq

theorem sizeApprox_eq (h : r.Rests accepted popped) :
    r.sizeApprox = UInt64.ofNat accepted.length - UInt64.ofNat popped := by
  rw [sizeApprox, h.head_eq, h.tail_eq]

theorem toNat_sizeApprox (h : r.Rests accepted popped) : r.sizeApprox.toNat = accepted.length - popped := by
  have hle := h.length_le
  have hlt := cap.toNat_lt
  rw [h.sizeApprox_eq]
  exact toNat_ofNat_sub h.popped_le (by omega)

theorem full_iff (h : r.Rests accepted popped) :
    cap.size ≤ r.head.current - r.tail.current ↔ popped + cap.toNat ≤ accepted.length := by
  rw [h.head_eq, h.tail_eq]
  exact cap.size_le_sub_iff h.popped_le h.length_le

theorem empty_iff (h : r.Rests accepted popped) : r.tail.current = r.head.current ↔ popped = accepted.length := by
  have hle := h.length_le
  have hlt := cap.toNat_lt
  rw [h.head_eq, h.tail_eq]
  exact ofNat_eq_iff h.popped_le (by omega)

theorem tryEmplace_full (h : r.Rests accepted popped) (hfull : popped + cap.toNat ≤ accepted.length) (v : α) :
    r.tryEmplace v = (false, r) := by
  rw [tryEmplace, if_pos (h.full_iff.mpr hfull)]

theorem tryEmplace_room (h : r.Rests accepted popped) (hroom : accepted.length < popped + cap.toNat) (v : α) :
    (r.tryEmplace v).1 = true ∧ (r.tryEmplace v).2.Rests (accepted ++ [v]) popped := by
  have hpushed : (r.tryEmplace v).1 = true := by
    rw [tryEmplace, if_neg (by rw [h.full_iff]; omega)]
  refine ⟨hpushed, ?_⟩
  obtain ⟨s, hinv, hold, hidle, rfl, rfl, rfl⟩ := h
  obtain ⟨hinv', hold'⟩ := hinv.holds_run hold [.producer (.loadHead v), .producer (.loadTail s.consumer.popped),
    .producer .constructAt, .producer .storeHead] (by simp)
  obtain ⟨hring, hcons, hpc, hacc⟩ := hinv.run_tryEmplace hidle.1 v
  rw [hpushed] at hacc
  exact ⟨_, hinv', hold', ⟨hpc, by rw [hcons, hidle.2]⟩, hring, hacc, by rw [hcons]⟩

theorem tryPop_empty (h : r.Rests accepted popped) (hempty : popped = accepted.length) : r.tryPop = (none, r) := by
  rw [tryPop, if_pos (h.empty_iff.mpr hempty)]

theorem tryPop_nonempty (h : r.Rests accepted popped) (hlt : popped < accepted.length) :
    r.tryPop.1 = some accepted[popped]? ∧ r.tryPop.2.Rests accepted (popped + 1) := by
  have hne : r.tail.current ≠ r.head.current := by
    rw [Ne, h.empty_iff]
    omega
  have htail := h.tail_eq
  obtain ⟨s, hinv, hold, hidle, rfl, rfl, rfl⟩ := h
  have htaken : s.consumer.pc.taken = 0 := by rw [hidle.2]; rfl
  have hvalues : s.values = s.producer.accepted := by
    rw [SpscRingBuffer.values, hidle.1]
    exact List.append_nil _
  have hslot := hold.value s.consumer.popped (by omega) (by rw [hvalues]; exact hlt)
  have hpopped : s.ring.tryPop.1 = some s.producer.accepted[s.consumer.popped]? := by
    rw [tryPop, if_neg hne, htail]
    dsimp only
    rw [slotAt_slotPtr, hslot, hvalues]
  obtain ⟨hinv', hold'⟩ := hinv.holds_run hold [.consumer .loadTail, .consumer (.loadHead s.producer.accepted.length),
    .consumer .moveOut, .consumer .destroyAt, .consumer .storeTail] (by simp)
  obtain ⟨hring, hprod, hpc, hret⟩ := hinv.run_tryPop hidle.2
  rw [hpopped] at hret
  exact ⟨hpopped, _, hinv', hold', ⟨by rw [hprod, hidle.1], hpc⟩, hring, by rw [hprod],
    by rw [Consumer.popped, hret, List.length_append]; rfl⟩

end Rests

theorem length_contents (r : Ring cap α) : r.contents.length = r.sizeApprox.toNat := by
  rw [contents, List.length_map, List.length_range]
  rfl

theorem Rests.contents_eq {r : Ring cap α} {accepted : List α} {popped : Nat} (h : r.Rests accepted popped) :
    r.contents = (accepted.drop popped).map some := by
  obtain ⟨s, hinv, hold, hidle, rfl, rfl, rfl⟩ := h
  have hvalues : s.values = s.producer.accepted := by
    rw [SpscRingBuffer.values, hidle.1]
    exact List.append_nil _
  have hcontents := hold.contents_eq hinv.ring (by rw [hvalues, hidle.1]; rfl)
  rw [hvalues, List.take_length, hidle.2] at hcontents
  exact hcontents

def Settled (r : Ring cap α) : Prop := ∃ accepted popped, r.Rests accepted popped

theorem settled_empty (cap : Capacity) (α : Type*) : (empty cap α).Settled := ⟨[], 0, rests_empty cap α⟩

namespace Settled
variable {r : Ring cap α} (h : r.Settled)
include h

theorem tryEmplace (v : α) :
    r.contents.length = cap.toNat ∧ r.tryEmplace v = (false, r) ∨
      r.contents.length < cap.toNat ∧ ∃ r' : Ring cap α, r.tryEmplace v = (true, r') ∧ r'.Settled ∧
        r'.contents = r.contents ++ [some v] := by
  obtain ⟨accepted, popped, hrests⟩ := h
  have hpopped := hrests.popped_le
  have hle := hrests.length_le
  rw [hrests.contents_eq, List.length_map, List.length_drop]
  by_cases hfull : popped + cap.toNat ≤ accepted.length
  · exact Or.inl ⟨by omega, hrests.tryEmplace_full hfull v⟩
  · obtain ⟨hpushed, hrests'⟩ := hrests.tryEmplace_room (not_le.mp hfull) v
    refine Or.inr ⟨by omega, (r.tryEmplace v).2, Prod.ext hpushed rfl, ⟨_, _, hrests'⟩, ?_⟩
    rw [hrests'.contents_eq, List.drop_append_of_le_length hpopped, List.map_append]
    rfl

theorem tryPop :
    r.contents = [] ∧ r.tryPop = (none, r) ∨
      ∃ value, ∃ r' : Ring cap α, r.tryPop = (some value, r') ∧ r'.Settled ∧ r.contents = value :: r'.contents := by
  obtain ⟨accepted, popped, hrests⟩ := h
  rw [hrests.contents_eq]
  by_cases hempty : popped = accepted.length
  · refine Or.inl ⟨?_, hrests.tryPop_empty hempty⟩
    rw [hempty, List.drop_length, List.map_nil]
  · have hlt := lt_of_le_of_ne hrests.popped_le hempty
    obtain ⟨hvalue, hrests'⟩ := hrests.tryPop_nonempty hlt
    refine Or.inr ⟨_, r.tryPop.2, Prod.ext hvalue rfl, ⟨_, _, hrests'⟩, ?_⟩
    rw [hrests'.contents_eq, List.drop_eq_getElem_cons hlt, List.map_cons, List.getElem?_eq_getElem hlt]

end Settled
end AetherStream.Ring
