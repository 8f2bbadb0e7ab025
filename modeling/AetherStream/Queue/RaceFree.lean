import AetherStream.Basis.HappensBefore
import AetherStream.Queue.Linearizable

/-! Neither queue has a data race: the release stores to `head_` and `tail_` and the acquire loads
that read them order any two accesses to one slot, in every interleaving and however old the stores
are that the loads return. The relaxed loads of a thread's own counter order nothing and are not
listed among the events; neither are the accesses to `active_reservation_`, which only the producer
makes. -/

namespace AetherStream
open Basis
variable {cap : Capacity} {α : Type*}

/-- What the step does to the memory that the threads share. The object in a slot is accessed by
its move and by its destruction. -/
def Ring.popEvents (a : PopStep α) (r : Ring cap α) (c : Consumer α) : List (RingEvent cap.toNat) :=
  match c.pc, a with
  | .loadedTail _, .loadHead k =>
    if (r.head.load c.headView k).isSome then [⟨.consumer, .acquire .producer k⟩] else []
  | .nonEmpty tail, .moveOut => [⟨.consumer, .access (cap.slotPtr tail)⟩]
  | .nonEmpty tail, .moveThrows _ => [⟨.consumer, .access (cap.slotPtr tail)⟩]
  | .movedOut tail _, .destroyAt => [⟨.consumer, .access (cap.slotPtr tail)⟩]
  | .destroyed _ _, .storeTail => [⟨.consumer, .release .consumer⟩]
  | _, _ => []

def Ring.Lists (r r' : Ring cap α) (events : List (RingEvent cap.toNat)) : Prop :=
  ∃ new, r'.buffer.log = r.buffer.log ++ new ∧ (new.map Access.slot).Sublist (accessed events)

theorem Ring.lists_of_log_eq {r r' : Ring cap α} {events : List (RingEvent cap.toNat)}
    (h : r'.buffer.log = r.buffer.log) : r.Lists r' events :=
  ⟨[], by rw [h, List.append_nil], List.nil_sublist _⟩

theorem Ring.Lists.sublist {r r' : Ring cap α} {t events : List (RingEvent cap.toNat)} (h : r.Lists r' events)
    (ht : (r.buffer.log.map Access.slot).Sublist (accessed t)) :
    (r'.buffer.log.map Access.slot).Sublist (accessed (t ++ events)) := by
  obtain ⟨new, hlog, hnew⟩ := h
  rw [hlog, List.map_append, accessed, List.filterMap_append]
  exact ht.append hnew

theorem Ring.lists_popStep (a : PopStep α) (r : Ring cap α) (c : Consumer α) :
    r.Lists (r.popStep a c).1 (r.popEvents a c) := by
  unfold Ring.popStep
  split
  case h_1 => exact Ring.lists_of_log_eq rfl
  case h_2 =>
    split
    · exact Ring.lists_of_log_eq rfl
    · split_ifs <;> exact Ring.lists_of_log_eq rfl
  case h_3 tail hpc =>
    simp only [Ring.popEvents, hpc]
    exact ⟨[.moveOut _ _], rfl, List.Sublist.refl _⟩
  case h_4 tail residue hpc =>
    simp only [Ring.popEvents, hpc]
    exact ⟨[.moveOut _ _], rfl, List.Sublist.refl _⟩
  case h_5 tail out hpc =>
    simp only [Ring.popEvents, hpc]
    exact ⟨[.destroy _ _], rfl, List.Sublist.refl _⟩
  case h_6 => exact Ring.lists_of_log_eq rfl
  case h_7 => exact Ring.lists_of_log_eq rfl

def Ring.Traced (h view : Nat) (c : Consumer α) (t : List (RingEvent cap.toNat)) : Prop :=
  Tracked t (Side.pair h c.popped) (Side.pair view c.headView)

section Traced
variable {c : Consumer α} {h view k : Nat} {t : List (RingEvent cap.toNat)}

theorem Ring.Traced.seesTail (ht : Ring.Traced h view c t) (hk : k ≤ c.popped) :
    Ring.Traced h k c (t ++ [⟨.producer, .acquire .consumer k⟩]) := by
  have hseen := ht.acquire .producer hk
  rwa [Side.update_pair_producer] at hseen

theorem Ring.Traced.takesSlot (ht : Ring.Traced h view c t) (hlt : h < view + cap.toNat) :
    Ring.Traced h view c (t ++ [⟨.producer, .access (cap.slotPtr (UInt64.ofNat h))⟩]) := by
  rw [cap.slotPtr_ofNat]
  exact ht.access .producer hlt

theorem Ring.Traced.storesHead (ht : Ring.Traced h view c t) :
    Ring.Traced (h + 1) view c (t ++ [⟨.producer, .release .producer⟩]) := by
  have hstored := ht.release .producer
  rwa [Side.update_pair_producer] at hstored

theorem Ring.Traced.storesTo_eq_length {r : Ring cap α} {built : Bool} (ht : Ring.Traced h view c t)
    (hinv : r.Inv c h built) :
    storesTo .producer t = r.head.stores.length ∧ storesTo .consumer t = r.tail.stores.length :=
  ⟨(ht.storesTo_eq .producer).trans hinv.head_counts.length_stores.symm,
    (ht.storesTo_eq .consumer).trans hinv.tail_counts.length_stores.symm⟩

end Traced

theorem Ring.Inv.traced_popStep {r : Ring cap α} {c : Consumer α} {h view : Nat} {built : Bool}
    {t : List (RingEvent cap.toNat)} (hinv : r.Inv c h built) (ht : Ring.Traced h view c t) (a : PopStep α) :
    Ring.Traced h view (r.popStep a c).2 (t ++ r.popEvents a c) := by
  have hstep := r.popMove a c
  have hat := hinv.pc_at
  have haccess (tail : UInt64) (htail : tail = UInt64.ofNat c.popped ∧ c.popped < c.headView) :
      Ring.Traced h view c (t ++ [⟨.consumer, .access (cap.slotPtr tail)⟩]) := by
    rw [htail.1, cap.slotPtr_ofNat]
    exact ht.access .consumer htail.2
  unfold Ring.popEvents
  split
  case h_1 tail k hpc =>
    simp only [Ring.popStep, hpc]
    cases hload : r.head.load c.headView k with
    | none => simpa using ht
    | some head =>
      obtain ⟨-, hk, -⟩ := hinv.head_counts.load_eq_some.mp hload
      have hseen := ht.acquire .consumer hk
      rw [Side.update_pair_consumer] at hseen
      simp only [Option.isSome_some, if_true]
      split_ifs <;> exact hseen
  case h_2 tail hpc =>
    rw [hpc] at hat
    simp only [Ring.popStep, hpc]
    exact haccess tail hat
  case h_3 tail residue hpc =>
    rw [hpc] at hat
    simp only [Ring.popStep, hpc]
    exact haccess tail hat
  case h_4 tail out hpc =>
    rw [hpc] at hat
    simp only [Ring.popStep, hpc]
    exact haccess tail hat
  case h_5 tail out hpc =>
    have hstored := ht.release .consumer
    rw [Side.update_pair_consumer] at hstored
    simp only [Ring.popStep, hpc, Ring.Traced, Consumer.popped, List.length_append]
    exact hstored
  case h_6 hload hmove hthrow hdestroy hstore =>
    rw [List.append_nil]
    generalize Ring.popStep _ r c = result at hstep ⊢
    obtain ⟨r', c'⟩ := result
    dsimp only at hstep ⊢
    cases hstep with
    | loadTail => exact ht
    | empty hpc => exact absurd rfl (hload _ _ hpc)
    | nonEmpty hpc => exact absurd rfl (hload _ _ hpc)
    | moveOut hpc => exact absurd rfl (hmove _ hpc)
    | moveThrows residue hpc => exact absurd rfl (hthrow _ _ hpc)
    | destroyAt hpc => exact absurd rfl (hdestroy _ _ hpc)
    | storeTail hpc => exact absurd rfl (hstore _ _ hpc)
    | stay => exact ht

def Ring.emplaceEvents (a : EmplaceStep α) (r : Ring cap α) (p : Producer α) : List (RingEvent cap.toNat) :=
  match p.pc, a with
  | .loadedHead _ _, .loadTail k =>
    if (r.tail.load p.tailView k).isSome then [⟨.producer, .acquire .consumer k⟩] else []
  | .hasRoom _ head, .constructAt => [⟨.producer, .access (cap.slotPtr head)⟩]
  | .hasRoom _ head, .constructThrows => [⟨.producer, .access (cap.slotPtr head)⟩]
  | .constructed _ _, .storeHead => [⟨.producer, .release .producer⟩]
  | _, _ => []

theorem Ring.lists_emplaceStep (a : EmplaceStep α) (r : Ring cap α) (p : Producer α) :
    r.Lists (r.emplaceStep a p).1 (r.emplaceEvents a p) := by
  unfold Ring.emplaceStep
  split
  case h_1 => exact Ring.lists_of_log_eq rfl
  case h_2 =>
    split
    · exact Ring.lists_of_log_eq rfl
    · split_ifs <;> exact Ring.lists_of_log_eq rfl
  case h_3 v head hpc =>
    simp only [Ring.emplaceEvents, hpc]
    exact ⟨[.construct _ _ _], rfl, List.Sublist.refl _⟩
  case h_4 => exact Ring.lists_of_log_eq rfl
  case h_5 => exact Ring.lists_of_log_eq rfl
  case h_6 => exact Ring.lists_of_log_eq rfl

namespace SpscRingBuffer

def events (s : SpscRingBuffer cap α) : SpscStep α → List (RingEvent cap.toNat)
  | .producer a => s.ring.emplaceEvents a s.producer
  | .consumer a => s.ring.popEvents a s.consumer

structure Traced (s : SpscRingBuffer cap α) (t : List (RingEvent cap.toNat)) : Prop where
  inv : s.Inv
  traced : Ring.Traced s.producer.accepted.length s.producer.tailView s.consumer t
  listed : (s.ring.buffer.log.map Access.slot).Sublist (accessed t)

variable {s : SpscRingBuffer cap α} {t : List (RingEvent cap.toNat)}

theorem Traced.emplaceStep (h : s.Traced t) (a : EmplaceStep α) :
    let p := (s.ring.emplaceStep a s.producer).2.1
    Ring.Traced p.accepted.length p.tailView s.consumer (t ++ s.ring.emplaceEvents a s.producer) := by
  obtain ⟨hinv, ht, -⟩ := h
  have hstep := s.ring.emplaceMove a s.producer
  have hat := hinv.pc_at
  unfold Ring.emplaceEvents
  split
  case h_1 v head k hpc =>
    simp only [Ring.emplaceStep, hpc]
    cases hload : s.ring.tail.load s.producer.tailView k with
    | none => simpa using ht
    | some tail =>
      have hseen := ht.seesTail (hinv.ring.tail_counts.load_eq_some.mp hload).2.1
      simp only [Option.isSome_some, if_true]
      split_ifs <;> exact hseen
  case h_2 v head hpc =>
    rw [hpc] at hat
    simp only [Ring.emplaceStep, hpc]
    rw [hat.1]
    exact ht.takesSlot hat.2
  case h_3 v head hpc =>
    rw [hpc] at hat
    simp only [Ring.emplaceStep, hpc]
    rw [hat.1]
    exact ht.takesSlot hat.2
  case h_4 v head hpc =>
    simp only [Ring.emplaceStep, hpc, List.length_append]
    exact ht.storesHead
  case h_5 hload hconstruct hthrow hstore =>
    rw [List.append_nil]
    generalize Ring.emplaceStep _ s.ring s.producer = result at hstep ⊢
    obtain ⟨r', p', returned⟩ := result
    dsimp only at hstep ⊢
    cases hstep with
    | loadHead => exact ht
    | full hpc => exact absurd rfl (hload _ _ _ hpc)
    | hasRoom hpc => exact absurd rfl (hload _ _ _ hpc)
    | constructAt hpc => exact absurd rfl (hconstruct _ _ hpc)
    | constructThrows hpc => exact absurd rfl (hthrow _ _ hpc)
    | storeHead hpc => exact absurd rfl (hstore _ _ hpc)
    | stay => exact ht

theorem Traced.step (h : s.Traced t) (a : SpscStep α) : (s.step a).Traced (t ++ s.events a) := by
  have hinv := h.inv.step a
  cases a with
  | producer a => exact ⟨hinv, h.emplaceStep a, (s.ring.lists_emplaceStep a s.producer).sublist h.listed⟩
  | consumer a =>
    exact ⟨hinv, h.inv.ring.traced_popStep h.traced a, (s.ring.lists_popStep a s.consumer).sublist h.listed⟩

def memory (cap : Capacity) (steps : List (SpscStep α)) : List (RingEvent cap.toNat) :=
  emitted step events (initial cap α) steps

/-- Every access in the log of the buffer and every store to the counters is among the events, and
any two accesses to one slot are ordered. -/
theorem race_free (cap : Capacity) (steps : List (SpscStep α)) :
    let s := (initial cap α).run steps
    (s.ring.buffer.log.map Access.slot).Sublist (accessed (memory cap steps)) ∧
    storesTo .producer (memory cap steps) = s.ring.head.stores.length ∧
    storesTo .consumer (memory cap steps) = s.ring.tail.stores.length ∧
    RaceFree (memory cap steps) := by
  intro s
  have halong : Along step (fun _ _ => True) (initial cap α) steps := along_of_forall_mem fun _ _ _ => trivial
  have htraced : s.Traced ([] ++ memory cap steps) :=
    halong.keeps (fun s t a h _ => h.step a) ⟨inv_initial cap α, Tracked.nil, List.Sublist.refl _⟩
  obtain ⟨hproducer, hconsumer⟩ := htraced.traced.storesTo_eq_length htraced.inv.ring
  exact ⟨htraced.listed, hproducer, hconsumer, htraced.traced.disciplined.raceFree⟩

end SpscRingBuffer

namespace ZeroCopySpsc

def accesses (s : ZeroCopySpsc cap α) (i : Nat) (p : Reservation cap → Bool) : List (RingEvent cap.toNat) :=
  (((s.handles i).filter p).bind (·.ptr)).toList.map fun x => ⟨.producer, .access x⟩

def producerEvents (s : ZeroCopySpsc cap α) (a : ReserveStep α) : List (RingEvent cap.toNat) :=
  match s.pc, a with
  | .loadedHead _, .loadTail k =>
    if (s.ring.tail.load s.tailView k).isSome then [⟨.producer, .acquire .consumer k⟩] else []
  | .idle, .construct i _ => s.accesses i (·.constructed)
  | .constructing i _, .constructAt => s.accesses i fun _ => true
  | .constructing i _, .constructThrows => s.accesses i fun _ => true
  | .idle, .commit i =>
    if (s.handles i).any fun r => r.queue && r.constructed then [⟨.producer, .release .producer⟩] else []
  | .idle, .cancel i => s.accesses i fun r => r.queue && r.constructed
  | .idle, .destroy i => s.accesses i fun r => r.queue && r.constructed
  | .idle, .moveAssign dst src =>
    if dst = src ∨ (s.handles src).isNone then [] else s.accesses dst fun r => r.queue && r.constructed
  | _, _ => []

def events (s : ZeroCopySpsc cap α) : ZeroCopyStep α → List (RingEvent cap.toNat)
  | .producer a => s.producerEvents a
  | .consumer a => s.ring.popEvents a s.consumer

structure Traced (s : ZeroCopySpsc cap α) (t : List (RingEvent cap.toNat)) : Prop where
  inv : Inv False s
  traced : Ring.Traced s.committed.length s.tailView s.consumer t
  listed : (s.ring.buffer.log.map Access.slot).Sublist (accessed t)

variable {s : ZeroCopySpsc cap α} {t : List (RingEvent cap.toNat)}

section Log
variable {events : List (RingEvent cap.toNat)} {i : Nat} {r : Reservation cap} {p : Reservation cap → Bool}

theorem accessed_accesses (hr : s.handles i = some r) (hp : p r = true) :
    accessed (s.accesses i p) = r.ptr.toList := by
  rw [accesses, hr, Option.filter_some_pos hp, Option.bind_some, accessed, List.filterMap_map]
  exact List.filterMap_some

theorem lists_destroyObject (hr : s.handles i = some r) (hp : p r = true) :
    s.ring.Lists (s.destroyObject r).ring (s.accesses i p) := by
  unfold destroyObject
  split
  case h_1 x hptr => exact ⟨[.destroy x _], rfl, by rw [accessed_accesses hr hp, hptr]; exact List.Sublist.refl _⟩
  case h_2 => exact Ring.lists_of_log_eq rfl

theorem log_afterCancel (s : ZeroCopySpsc cap α) (i : Nat) (after : AfterCancel) :
    (s.afterCancel i after).ring.buffer.log = s.ring.buffer.log := by
  cases after with
  | keep => rfl
  | destroy => rfl
  | moveFrom src =>
    show (s.moveFrom i src).ring.buffer.log = _
    unfold moveFrom
    split <;> rfl

theorem lists_cancel (hr : s.handles i = some r) (after : AfterCancel) :
    s.ring.Lists (s.cancel i r after).ring (s.accesses i fun r => r.queue && r.constructed) := by
  unfold cancel
  split_ifs with hqueue hbuilt
  · exact Ring.lists_of_log_eq (s.log_afterCancel i after)
  · exact lists_destroyObject hr (by simp_all)
  · exact Ring.lists_of_log_eq rfl

theorem lists_construct (hr : s.handles i = some r) (v : α) :
    s.ring.Lists (s.construct i v r).ring (s.accesses i (·.constructed)) := by
  unfold construct
  split_ifs with hptr hbuilt
  · exact Ring.lists_of_log_eq rfl
  · exact lists_destroyObject hr hbuilt
  · exact Ring.lists_of_log_eq rfl

theorem lists_constructAt (hr : s.handles i = some r) (v : α) :
    s.ring.Lists (s.constructAt i v r).ring (s.accesses i fun _ => true) := by
  unfold constructAt
  split
  case h_1 => exact Ring.lists_of_log_eq rfl
  case h_2 x hptr => exact ⟨[.construct x _ _], rfl, by rw [accessed_accesses hr rfl, hptr]; exact List.Sublist.refl _⟩

theorem lists_onHandle {f : Reservation cap → ZeroCopySpsc cap α}
    (h : ∀ r, s.handles i = some r → s.ring.Lists (f r).ring events) : s.ring.Lists (s.onHandle i f).ring events := by
  unfold onHandle
  cases hr : s.handles i with
  | none => exact Ring.lists_of_log_eq rfl
  | some r => exact h r hr

theorem lists_producerStep (a : ReserveStep α) : s.ring.Lists (s.producerStep a).ring (s.producerEvents a) := by
  unfold ZeroCopySpsc.producerStep
  split
  case h_1 => exact Ring.lists_of_log_eq rfl
  case h_2 => split_ifs <;> exact Ring.lists_of_log_eq rfl
  case h_3 => exact Ring.lists_of_log_eq rfl
  case h_4 =>
    split
    · exact Ring.lists_of_log_eq rfl
    · dsimp only
      split_ifs <;> exact Ring.lists_of_log_eq rfl
  case h_5 i v hpc =>
    simp only [producerEvents, hpc]
    exact lists_onHandle fun r hr => lists_construct hr v
  case h_6 i v hpc =>
    simp only [producerEvents, hpc]
    exact lists_onHandle fun r hr => lists_constructAt hr v
  case h_7 => exact Ring.lists_of_log_eq rfl
  case h_8 =>
    refine lists_onHandle fun r hr => ?_
    unfold ZeroCopySpsc.commit
    split_ifs <;> exact Ring.lists_of_log_eq rfl
  case h_9 => exact lists_onHandle fun r hr => Ring.lists_of_log_eq rfl
  case h_10 i hpc =>
    simp only [producerEvents, hpc]
    exact lists_onHandle fun r hr => lists_cancel hr .keep
  case h_11 i hpc =>
    simp only [producerEvents, hpc]
    exact lists_onHandle fun r hr => lists_cancel hr .destroy
  case h_12 => exact lists_onHandle fun r hr => Ring.lists_of_log_eq rfl
  case h_13 dst src hpc =>
    simp only [producerEvents, hpc]
    split_ifs
    · exact Ring.lists_of_log_eq rfl
    · exact lists_onHandle fun r hr => lists_cancel hr (.moveFrom src)
  case h_14 i after hpc =>
    exact lists_onHandle fun r hr => Ring.lists_of_log_eq ((s.release i r).log_afterCancel i after)
  case h_15 => exact Ring.lists_of_log_eq rfl

end Log

theorem Held.traced_accesses {holder : Option Nat}
    (hheld : Held s.handles s.tailView s.committed.length s.staged holder)
    (ht : Ring.Traced s.committed.length s.tailView s.consumer t) (i : Nat) (p : Reservation cap → Bool) :
    Ring.Traced s.committed.length s.tailView s.consumer (t ++ s.accesses i p) := by
  unfold accesses
  cases hreach : ((s.handles i).filter p).bind (·.ptr) with
  | none => simpa using ht
  | some x =>
    obtain ⟨r, hfilter, hptr⟩ := Option.bind_eq_some_iff.mp hreach
    obtain ⟨hr, -⟩ := Option.filter_eq_some_iff.mp hfilter
    obtain rfl := hheld.sole.eq_some_of_not_blank hr fun hblank => by simp [hblank.2.1] at hptr
    obtain ⟨-, -, howns, -⟩ := hheld.sole.get hr
    obtain rfl : cap.slotPtr (UInt64.ofNat s.committed.length) = x := Option.some.inj (howns.symm.trans hptr)
    exact ht.takesSlot (hheld.room (by simp))

theorem Traced.loadTail {head : UInt64} (h : s.Traced t) (hpc : s.pc = .loadedHead head) (k : Nat) :
    let s' := s.producerStep (.loadTail k)
    Ring.Traced s'.committed.length s'.tailView s'.consumer (t ++ s.producerEvents (.loadTail k)) := by
  simp only [ZeroCopySpsc.producerStep, producerEvents, hpc]
  cases hload : s.ring.tail.load s.tailView k with
  | none => simpa using h.traced
  | some tail =>
    have hseen := h.traced.seesTail (h.inv.backed.inv.tail_counts.load_eq_some.mp hload).2.1
    simp only [Option.isSome_some, if_true]
    split_ifs <;> exact hseen

theorem Traced.commit (h : s.Traced t) (hpc : s.pc = .idle) (i : Nat) :
    let s' := s.producerStep (.commit i)
    Ring.Traced s'.committed.length s'.tailView s'.consumer (t ++ s.producerEvents (.commit i)) := by
  simp only [ZeroCopySpsc.producerStep, producerEvents, hpc, onHandle]
  cases hr : s.handles i with
  | none => simpa using h.traced
  | some r =>
    simp only [Option.elim_some, Option.any_some, ZeroCopySpsc.commit, ← Bool.not_and]
    by_cases hready : (r.queue && r.constructed) = true
    · obtain ⟨hqueue, hbuilt⟩ := Bool.and_eq_true_iff.mp hready
      obtain ⟨-, -, howns⟩ := h.inv.owns hr hpc hqueue
      obtain ⟨v, hv⟩ := Option.isSome_iff_exists.mp (howns.2.2.2.symm.trans hbuilt)
      have hlength : (s.committed ++ s.staged.toList).length = s.committed.length + 1 := by
        rw [hv, List.length_append]
        rfl
      simp only [hready, Bool.not_true, Bool.false_eq_true, if_false, if_true, hlength]
      exact h.traced.storesHead
    · rw [Bool.not_eq_true] at hready
      simp only [hready, Bool.not_false, if_true, Bool.false_eq_true, if_false, List.append_nil]
      exact h.traced

theorem Traced.producerStep (h : s.Traced t) (a : ReserveStep α) :
    let s' := s.producerStep a
    Ring.Traced s'.committed.length s'.tailView s'.consumer (t ++ s.producerEvents a) := by
  by_cases hload : (∃ head, s.pc = .loadedHead head) ∧ ∃ k, a = .loadTail k
  · obtain ⟨⟨head, hpc⟩, k, rfl⟩ := hload
    exact h.loadTail hpc k
  by_cases hcommit : s.pc = .idle ∧ ∃ i, a = .commit i
  · obtain ⟨hpc, i, rfl⟩ := hcommit
    exact h.commit hpc i
  obtain ⟨hconsumer, hcommitted, hview⟩ := sameEnds_producerStep hload hcommit
  dsimp only
  rw [hconsumer, hcommitted, hview]
  obtain ⟨hinv, ht, -⟩ := h
  have hidle (hpc : s.pc = .idle) (i : Nat) (p : Reservation cap → Bool) :
      Ring.Traced s.committed.length s.tailView s.consumer (t ++ s.accesses i p) := by
    obtain ⟨holder, -, hheld⟩ := hinv.idle hpc
    exact hheld.traced_accesses ht i p
  have hconstructing (i : Nat) (v : α) (hpc : s.pc = .constructing i v) (p : Reservation cap → Bool) :
      Ring.Traced s.committed.length s.tailView s.consumer (t ++ s.accesses i p) := by
    have hat := hinv.pc_at
    rw [PcAt, hpc] at hat
    exact hat.2.1.traced_accesses ht i p
  unfold producerEvents
  split
  case h_1 head k hpc => exact absurd ⟨⟨head, hpc⟩, k, rfl⟩ hload
  case h_2 i v hpc => exact hidle hpc i _
  case h_3 i v hpc => exact hconstructing i v hpc _
  case h_4 i v hpc => exact hconstructing i v hpc _
  case h_5 i hpc => exact absurd ⟨hpc, i, rfl⟩ hcommit
  case h_6 i hpc => exact hidle hpc i _
  case h_7 i hpc => exact hidle hpc i _
  case h_8 dst src hpc =>
    split_ifs
    · simpa using ht
    · exact hidle hpc dst _
  case h_9 => simpa using ht

theorem Traced.step {a : ZeroCopyStep α} (h : s.Traced t) (ha : s.allowed a = true) :
    (s.step a).Traced (t ++ s.events a) := by
  have hinv := h.inv.step ha False.elim
  cases a with
  | producer a => exact ⟨hinv, h.producerStep a, (lists_producerStep a).sublist h.listed⟩
  | consumer a =>
    exact ⟨hinv, h.inv.backed.inv.traced_popStep h.traced a, (s.ring.lists_popStep a s.consumer).sublist h.listed⟩

def memory (cap : Capacity) (steps : List (ZeroCopyStep α)) : List (RingEvent cap.toNat) :=
  emitted step events (initial cap α) steps

/-- The same, as long as `construct` is called only on a handle that holds a reservation. -/
theorem zeroCopy_race_free (cap : Capacity) (steps : List (ZeroCopyStep α))
    (hobeys : (initial cap α).obeys steps = true) :
    let s := (initial cap α).run steps
    (s.ring.buffer.log.map Access.slot).Sublist (accessed (memory cap steps)) ∧
    storesTo .producer (memory cap steps) = s.ring.head.stores.length ∧
    storesTo .consumer (memory cap steps) = s.ring.tail.stores.length ∧
    RaceFree (memory cap steps) := by
  intro s
  have htraced : s.Traced ([] ++ memory cap steps) :=
    (along_allowed hobeys).keeps (fun s t a h ha => h.step ha)
      ⟨inv_initial False cap α, Tracked.nil, List.Sublist.refl _⟩
  obtain ⟨hproducer, hconsumer⟩ := htraced.traced.storesTo_eq_length htraced.inv.backed.inv
  exact ⟨htraced.listed, hproducer, hconsumer, htraced.traced.disciplined.raceFree⟩

theorem zeroCopy_race_free_commitThenAbandon :
    accessed (memory .least commitThenAbandon) = [0, 0, 0, 0, 1, 0, 1] ∧
      HappensBefore (memory .least commitThenAbandon) 3 7 := by
  obtain ⟨-, -, -, hordered⟩ := zeroCopy_race_free .least commitThenAbandon rfl
  exact ⟨rfl, hordered 3 7 (by decide) .producer .consumer 0 rfl rfl⟩

end ZeroCopySpsc
end AetherStream
