import AetherStream.Basis.BoundedFifo
import AetherStream.Queue.SpscSafety
import AetherStream.Queue.ZeroCopySafety

/-! Both queues against one specification. A call takes effect with the step it returns with, so
the calls in the order of their returns are a linearization as soon as the specification takes
them in that order. -/

namespace AetherStream
open Basis ModularCounter
variable {cap : Capacity} {α : Type*}

inductive Ring.PopMove (r : Ring cap α) (c : Consumer α) : PopStep α → Ring cap α → Consumer α → Prop
  | loadTail (hpc : c.pc = .idle) : PopMove r c .loadTail r { c with pc := .loadedTail r.tail.current }
  | empty {tail : UInt64} {k : Nat} (hpc : c.pc = .loadedTail tail) (hload : r.head.load c.headView k = some tail) :
      PopMove r c (.loadHead k) r { c with pc := .idle, headView := k }
  | nonEmpty {tail head : UInt64} {k : Nat} (hpc : c.pc = .loadedTail tail)
      (hload : r.head.load c.headView k = some head) (hne : tail ≠ head) :
      PopMove r c (.loadHead k) r { c with pc := .nonEmpty tail, headView := k }
  | moveOut {tail : UInt64} (hpc : c.pc = .nonEmpty tail) :
      PopMove r c .moveOut { r with buffer := r.buffer.moveLeaving none (cap.slotPtr tail) }
        { c with pc := .movedOut tail (r.buffer.slots (cap.slotPtr tail)).value }
  | moveThrows {tail : UInt64} (residue : Option α) (hpc : c.pc = .nonEmpty tail) :
      PopMove r c (.moveThrows residue) { r with buffer := r.buffer.moveLeaving residue (cap.slotPtr tail) }
        { c with pc := .idle }
  | destroyAt {tail : UInt64} {out : Option α} (hpc : c.pc = .movedOut tail out) :
      PopMove r c .destroyAt { r with buffer := r.buffer.destroyAt (cap.slotPtr tail) }
        { c with pc := .destroyed tail out }
  | storeTail {tail : UInt64} {out : Option α} (hpc : c.pc = .destroyed tail out) :
      PopMove r c .storeTail { r with tail := r.tail.store (tail + 1) }
        { c with pc := .idle, returned := c.returned ++ [out] }
  | stay (a : PopStep α) : PopMove r c a r c

theorem Ring.popMove (a : PopStep α) (r : Ring cap α) (c : Consumer α) :
    r.PopMove c a (r.popStep a c).1 (r.popStep a c).2 := by
  unfold Ring.popStep
  split
  case h_1 hpc => exact .loadTail hpc
  case h_2 tail k hpc =>
    split
    · exact .stay _
    case h_2 head hload =>
      split_ifs with heq
      · exact .empty hpc (heq ▸ hload)
      · exact .nonEmpty hpc hload heq
  case h_3 hpc => exact .moveOut hpc
  case h_4 residue hpc => exact .moveThrows residue hpc
  case h_5 hpc => exact .destroyAt hpc
  case h_6 hpc => exact .storeTail hpc
  case h_7 => exact .stay _

/-- No load of the step answers with an old store. -/
def PopStep.upToDate (r : Ring cap α) : PopStep α → Bool
  | .loadHead k => k = r.head.stores.length
  | _ => true

def Ring.popReturns (a : PopStep α) (r : Ring cap α) (c : Consumer α) : List (FifoEvent (Option α)) :=
  match c.pc, (r.popStep a c).2.pc with
  | .loadedTail _, .idle => [.empty]
  | .destroyed _ out, .idle => [.popped out]
  | _, _ => []

/-- The specification's queue for a producer that has published these values and looked at
`tail_` as of `view`. -/
structure Matches (c : Consumer α) (published : List α) (view : Nat) (q : DelayedFifo (Option α)) : Prop where
  values : q.values = published.map some
  taken : q.taken = c.popped
  takenSeen : q.takenSeen ≤ view
  pushedSeen : q.pushedSeen ≤ c.headView

theorem matches_initial (α : Type*) : Matches (Consumer.initial α) [] 0 {} := ⟨rfl, rfl, le_rfl, le_rfl⟩

namespace Matches
variable {r : Ring cap α} {c c' : Consumer α} {published staged : List α} {view : Nat} {q : DelayedFifo (Option α)}
  {fresh : Prop} {built : Bool}

theorem silent (h : Matches c published view q) (hret : c'.returned = c.returned) (hview : c.headView ≤ c'.headView) :
    ∃ q', Takes (DelayedFifo.Next fresh cap.toNat) q [] q' ∧ Matches c' published view q' := by
  have hpop : c'.popped = c.popped := congrArg List.length hret
  exact ⟨q, rfl, h.values, hpop ▸ h.taken, h.takenSeen, h.pushedSeen.trans hview⟩

theorem loadHead_empty {tail : UInt64} {k : Nat} (h : Matches c published view q)
    (hinv : r.Inv c published.length built) (hpc : c.pc = .loadedTail tail)
    (hload : r.head.load c.headView k = some tail) (hfresh : fresh → k = r.head.stores.length) :
    ∃ q', Takes (DelayedFifo.Next fresh cap.toNat) q [.empty] q' ∧
      Matches { c with pc := .idle, headView := k } published view q' := by
  obtain ⟨hview, hk, htail⟩ := hinv.head_counts.load_eq_some.mp hload
  have hat : tail = UInt64.ofNat c.popped := by simpa only [hpc, PopPc.At] using hinv.pc_at
  have hpopped := hinv.popped_le
  have hroom := hinv.room
  have hlt := cap.toNat_lt
  -- the counters agree modulo 2 ^ 64 and lie in one window
  have hempty : c.popped = k := by
    rw [hat, ofNat_eq_iff (by omega) (by omega)] at htail
    exact htail
  have hlen : q.values.length = published.length := by rw [h.values, List.length_map]
  refine ⟨_, takes_singleton (.empty (h.pushedSeen.trans hview) (by omega) (fun hf => ?_) (h.taken.trans hempty)),
    h.values, h.taken, h.takenSeen, le_rfl⟩
  rw [hfresh hf, hinv.head_counts.length_stores, hlen]

theorem storeTail {tail : UInt64} {out : Option α} (h : Matches c published view q)
    (hinv : r.Inv c published.length built) (hold : r.Holds c (published ++ staged))
    (hpc : c.pc = .destroyed tail out) :
    ∃ q', Takes (DelayedFifo.Next fresh cap.toNat) q [.popped out] q' ∧
      Matches { c with pc := .idle, returned := c.returned ++ [out] } published view q' := by
  obtain ⟨-, hlt⟩ : tail = UInt64.ofNat c.popped ∧ c.popped < c.headView := by
    simpa only [hpc, PopPc.At] using hinv.pc_at
  have hview := hinv.view_le
  have hin : c.popped < published.length := by omega
  have hhand := hold.inHand
  rw [hpc, List.drop_append_of_le_length hin.le, List.drop_eq_getElem_cons hin] at hhand
  have hout : out = some published[c.popped] := List.head_eq_of_cons_eq hhand
  refine ⟨_, takes_singleton (.pop h.pushedSeen (by rw [h.values, List.length_map]; exact hview) (h.taken ▸ hlt) ?_),
    h.values, ?_, h.takenSeen, le_rfl⟩
  · rw [h.values, h.taken, List.getElem?_map, List.getElem?_eq_getElem hin, hout]
    rfl
  · rw [Consumer.popped, List.length_append, h.taken]
    rfl

theorem popStep (h : Matches c published view q) (hinv : r.Inv c published.length built)
    (hold : r.Holds c (published ++ staged)) (a : PopStep α) (hfresh : fresh → a.upToDate r = true) :
    ∃ q', Takes (DelayedFifo.Next fresh cap.toNat) q (r.popReturns a c) q' ∧
      Matches (r.popStep a c).2 published view q' := by
  have hmove := r.popMove a c
  unfold Ring.popReturns
  generalize r.popStep a c = result at hmove ⊢
  obtain ⟨r', c'⟩ := result
  dsimp only at hmove ⊢
  cases hmove with
  | loadTail hpc =>
    rw [hpc]
    exact h.silent rfl le_rfl
  | empty hpc hload =>
    rw [hpc]
    exact h.loadHead_empty hinv hpc hload fun hf => of_decide_eq_true (hfresh hf)
  | nonEmpty hpc hload =>
    rw [hpc]
    exact h.silent rfl (hinv.head_counts.load_eq_some.mp hload).1
  | moveOut hpc =>
    rw [hpc]
    exact h.silent rfl le_rfl
  | moveThrows residue hpc =>
    rw [hpc]
    exact h.silent rfl le_rfl
  | destroyAt hpc =>
    rw [hpc]
    exact h.silent rfl le_rfl
  | storeTail hpc =>
    rw [hpc]
    exact h.storeTail hinv hold hpc
  | stay => cases hpc : c.pc <;> exact h.silent rfl le_rfl

theorem loadTail {k : Nat} (h : Matches c published view q) (hk : view ≤ k) : Matches c published k q :=
  ⟨h.values, h.taken, h.takenSeen.trans hk, h.pushedSeen⟩

theorem full {k : Nat} (h : Matches c published view q) (hinv : r.Inv c published.length built) (hk : view ≤ k)
    (hk' : k ≤ c.popped) (hwindow : published.length ≤ view + cap.toNat)
    (hfull : cap.size ≤ UInt64.ofNat published.length - UInt64.ofNat k)
    (hfresh : fresh → k = r.tail.stores.length) :
    ∃ q', Takes (DelayedFifo.Next fresh cap.toNat) q [.full] q' ∧ Matches c published k q' := by
  have hle := hinv.popped_le_head
  rw [cap.size_le_sub_iff (hk'.trans hle) (by omega)] at hfull
  refine ⟨_, takes_singleton (.full (h.takenSeen.trans hk) (h.taken ▸ hk') (fun hf => ?_) ?_),
    h.values, h.taken, le_rfl, h.pushedSeen⟩
  · rw [hfresh hf, hinv.tail_counts.length_stores, h.taken]
  · rw [h.values, List.length_map]
    omega

theorem push (h : Matches c published view q) (hview : view ≤ c.popped)
    (hroom : published.length < view + cap.toNat) (v : α) :
    ∃ q', Takes (DelayedFifo.Next fresh cap.toNat) q [.pushed (some v)] q' ∧
      Matches c (published ++ [v]) view q' := by
  refine ⟨_, takes_singleton (.push (some v) h.takenSeen (h.taken ▸ hview) ?_), ?_, h.taken, le_rfl, h.pushedSeen⟩
  · rwa [h.values, List.length_map]
  · rw [h.values, List.map_append]
    rfl

theorem contents_eq (h : Matches c published view q) :
    q.contents = (published.drop c.returned.length).map some := by
  rw [DelayedFifo.contents, h.values, h.taken, List.map_drop]
  rfl

end Matches

def EmplaceStep.upToDate (r : Ring cap α) : EmplaceStep α → Bool
  | .loadTail k => k = r.tail.stores.length
  | _ => true

inductive Ring.EmplaceMove (r : Ring cap α) (p : Producer α) :
    EmplaceStep α → Ring cap α → Producer α → Option Bool → Prop
  | loadHead (v : α) (hpc : p.pc = .idle) :
      EmplaceMove r p (.loadHead v) r { p with pc := .loadedHead v r.head.current } none
  | full {v : α} {head tail : UInt64} {k : Nat} (hpc : p.pc = .loadedHead v head)
      (hload : r.tail.load p.tailView k = some tail) (hfull : cap.size ≤ head - tail) :
      EmplaceMove r p (.loadTail k) r { p with pc := .idle, tailView := k } (some false)
  | hasRoom {v : α} {head tail : UInt64} {k : Nat} (hpc : p.pc = .loadedHead v head)
      (hload : r.tail.load p.tailView k = some tail) (hroom : ¬ cap.size ≤ head - tail) :
      EmplaceMove r p (.loadTail k) r { p with pc := .hasRoom v head, tailView := k } none
  | constructAt {v : α} {head : UInt64} (hpc : p.pc = .hasRoom v head) :
      EmplaceMove r p .constructAt { r with buffer := r.buffer.constructAt (cap.slotPtr head) v }
        { p with pc := .constructed v head } none
  | constructThrows {v : α} {head : UInt64} (hpc : p.pc = .hasRoom v head) :
      EmplaceMove r p .constructThrows r { p with pc := .idle } none
  | storeHead {v : α} {head : UInt64} (hpc : p.pc = .constructed v head) :
      EmplaceMove r p .storeHead { r with head := r.head.store (head + 1) }
        { p with pc := .idle, accepted := p.accepted ++ [v] } (some true)
  | stay (a : EmplaceStep α) : EmplaceMove r p a r p none

theorem Ring.emplaceMove (a : EmplaceStep α) (r : Ring cap α) (p : Producer α) :
    r.EmplaceMove p a (r.emplaceStep a p).1 (r.emplaceStep a p).2.1 (r.emplaceStep a p).2.2 := by
  unfold Ring.emplaceStep
  split
  case h_1 v hpc => exact .loadHead v hpc
  case h_2 hpc =>
    split
    · exact .stay _
    case h_2 hload =>
      split_ifs with hfull
      · exact .full hpc hload hfull
      · exact .hasRoom hpc hload hfull
  case h_3 hpc => exact .constructAt hpc
  case h_4 hpc => exact .constructThrows hpc
  case h_5 hpc => exact .storeHead hpc
  case h_6 => exact .stay _

def Ring.emplaceReturns (a : EmplaceStep α) (r : Ring cap α) (p : Producer α) : List (FifoEvent (Option α)) :=
  match (r.emplaceStep a p).2.2 with
  | none => []
  | some false => [.full]
  | some true => [.pushed p.pc.pending.head?]

namespace SpscRingBuffer

def upToDate (s : SpscRingBuffer cap α) : SpscStep α → Bool
  | .producer a => a.upToDate s.ring
  | .consumer a => a.upToDate s.ring

def returns (s : SpscRingBuffer cap α) : SpscStep α → List (FifoEvent (Option α))
  | .producer a => s.ring.emplaceReturns a s.producer
  | .consumer a => s.ring.popReturns a s.consumer

def history (cap : Capacity) (steps : List (SpscStep α)) : List (FifoEvent (Option α)) :=
  emitted step returns (initial cap α) steps

/-- A call is refused with the very step that loads the other end's counter. -/
def reliableReturns (s : SpscRingBuffer cap α) (a : SpscStep α) : List (FifoEvent (Option α)) :=
  (s.returns a).filter (FifoEvent.reliable (s.upToDate a))

/-- The same without the calls that were refused on an old counter. -/
def reliableHistory (cap : Capacity) (steps : List (SpscStep α)) : List (FifoEvent (Option α)) :=
  emitted step reliableReturns (initial cap α) steps

variable {s : SpscRingBuffer cap α} {q : DelayedFifo (Option α)} {fresh : Prop}

theorem Inv.matches_emplaceStep (hinv : s.Inv) (h : Matches s.consumer s.producer.accepted s.producer.tailView q)
    (a : EmplaceStep α) (hfresh : fresh → a.upToDate s.ring = true) :
    let p := (s.ring.emplaceStep a s.producer).2.1
    ∃ q', Takes (DelayedFifo.Next fresh cap.toNat) q (s.ring.emplaceReturns a s.producer) q' ∧
      Matches s.consumer p.accepted p.tailView q' := by
  have hmove := s.ring.emplaceMove a s.producer
  have hat := hinv.pc_at
  unfold Ring.emplaceReturns
  generalize s.ring.emplaceStep a s.producer = result at hmove ⊢
  obtain ⟨r, p, returned⟩ := result
  dsimp only at hmove ⊢
  cases hmove with
  | loadHead v hpc => exact ⟨q, rfl, h⟩
  | full hpc hload hfull =>
    obtain ⟨hk, hk', rfl⟩ := hinv.ring.tail_counts.load_eq_some.mp hload
    rw [hpc] at hat
    obtain rfl := hat
    exact h.full hinv.ring hk hk' hinv.window hfull fun hf => of_decide_eq_true (hfresh hf)
  | hasRoom hpc hload => exact ⟨q, rfl, h.loadTail (hinv.ring.tail_counts.load_eq_some.mp hload).1⟩
  | constructAt hpc => exact ⟨q, rfl, h⟩
  | constructThrows hpc => exact ⟨q, rfl, h⟩
  | storeHead hpc =>
    rw [hpc] at hat ⊢
    exact h.push hinv.view_le hat.2 _
  | stay => exact ⟨q, rfl, h⟩

structure Refines (s : SpscRingBuffer cap α) (q : DelayedFifo (Option α)) : Prop where
  inv : s.Inv
  holds : s.ring.Holds s.consumer s.values
  isMatch : Matches s.consumer s.producer.accepted s.producer.tailView q

def Unthrowing (_ : SpscRingBuffer cap α) (a : SpscStep α) : Prop := ∀ residue, a ≠ .consumer (.moveThrows residue)

theorem along_unthrowing {steps : List (SpscStep α)}
    (hsteps : ∀ residue, SpscStep.consumer (.moveThrows residue) ∉ steps) : Along step Unthrowing s steps :=
  along_of_forall_mem fun _ ha _ residue heq => hsteps residue (heq ▸ ha)

theorem Refines.step (h : s.Refines q) {a : SpscStep α} (ha : s.Unthrowing a)
    (hfresh : fresh → s.upToDate a = true) :
    ∃ q', Takes (DelayedFifo.Next fresh cap.toNat) q (s.returns a) q' ∧ (s.step a).Refines q' := by
  obtain ⟨hinv, hold, hmatch⟩ := h
  have hinv' := hinv.step a
  have hold' := hinv.holds_step hold a ha
  cases a with
  | producer a =>
    obtain ⟨q', htakes, hmatch'⟩ := hinv.matches_emplaceStep hmatch a hfresh
    exact ⟨q', htakes, hinv', hold', hmatch'⟩
  | consumer a =>
    obtain ⟨q', htakes, hmatch'⟩ := hmatch.popStep hinv.ring hold a hfresh
    exact ⟨q', htakes, hinv', hold', hmatch'⟩

theorem Refines.run (h : s.Refines q) (steps : List (SpscStep α))
    (hsteps : ∀ residue, SpscStep.consumer (.moveThrows residue) ∉ steps) :
    ∃ q', Takes (DelayedFifo.Next False cap.toNat) q (emitted SpscRingBuffer.step returns s steps) q' ∧
      (s.run steps).Refines q' :=
  (along_unthrowing hsteps).simulates (fun _ _ _ h ha => h.step ha False.elim) h

theorem refines_initial (cap : Capacity) (α : Type*) : (initial cap α).Refines {} :=
  ⟨inv_initial cap α, Ring.holds_empty cap α, matches_initial α⟩

/-- For every schedule in which no move throws, the calls in the order of their returns are a
history of the bounded queue whose ends see each other late. Without the refusals for which the
call has loaded an old counter they are a history of the plain bounded queue; if no load of the
run is old, nothing is left out. -/
theorem linearizable (cap : Capacity) (steps : List (SpscStep α))
    (hsteps : ∀ residue, SpscStep.consumer (.moveThrows residue) ∉ steps) :
    let s := (initial cap α).run steps
    (∃ q : DelayedFifo (Option α), Takes (DelayedFifo.Next False cap.toNat) {} (history cap steps) q ∧
      q.values = s.producer.accepted.map some ∧ q.taken = s.consumer.returned.length) ∧
    Takes (FifoNext cap.toNat) [] (reliableHistory cap steps)
      ((s.producer.accepted.drop s.consumer.returned.length).map some) ∧
    (Along step (fun s a => s.upToDate a = true) (initial cap α) steps →
      reliableHistory cap steps = history cap steps) := by
  intro s
  refine ⟨?_, ?_, fun hfresh => hfresh.emitted_filter fun _ => rfl⟩
  · obtain ⟨q, htakes, hrefines⟩ := (refines_initial cap α).run steps hsteps
    exact ⟨q, htakes, hrefines.isMatch.values, hrefines.isMatch.taken⟩
  · obtain ⟨q, htakes, hrefines⟩ := DelayedFifo.simulates_reliable (fun _ _ _ h ha => h.step ha id)
      (refines_initial cap α) (along_unthrowing hsteps)
    rw [hrefines.isMatch.contents_eq] at htakes
    exact htakes

def refusedLate : List (SpscStep Nat) :=
  onePush 7 ++ onePush 8 ++ onePop ++ [.producer (.loadHead 9), .producer (.loadTail 0)]

theorem linearizable_refusedLate :
    history .least refusedLate = [.pushed (some 7), .pushed (some 8), .popped (some 7), .full] ∧
      (∃ q : DelayedFifo (Option Nat), Takes (DelayedFifo.Next False 2) {} (history .least refusedLate) q ∧
        q.values = [some 7, some 8] ∧ q.taken = 1) ∧
      reliableHistory .least refusedLate = [.pushed (some 7), .pushed (some 8), .popped (some 7)] ∧
      Takes (FifoNext 2) [] (reliableHistory .least refusedLate) [some 8] := by
  obtain ⟨hdelayed, hreliable, -⟩ := linearizable .least refusedLate (by simp [refusedLate, onePush, onePop])
  exact ⟨rfl, hdelayed, rfl, hreliable⟩

end SpscRingBuffer

namespace ZeroCopySpsc

def upToDate (s : ZeroCopySpsc cap α) : ZeroCopyStep α → Bool
  | .producer (.loadTail k) => k = s.ring.tail.stores.length
  | .producer _ => true
  | .consumer a => a.upToDate s.ring

/-- `try_reserve` reports a full queue, and `commit` is the push. A `try_reserve` that is turned
away for the active reservation does not look at the queue. -/
def producerReturns (s : ZeroCopySpsc cap α) (a : ReserveStep α) : List (FifoEvent (Option α)) :=
  match s.pc, a with
  | .loadedHead _, .loadTail _ =>
    if (s.producerStep a).pc.isBusy || (s.producerStep a).activeReservation then [] else [.full]
  | .idle, .commit _ => if (s.producerStep a).pc.isBusy then [.pushed s.staged] else []
  | _, _ => []

def returns (s : ZeroCopySpsc cap α) : ZeroCopyStep α → List (FifoEvent (Option α))
  | .producer a => s.producerReturns a
  | .consumer a => s.ring.popReturns a s.consumer

def history (cap : Capacity) (steps : List (ZeroCopyStep α)) : List (FifoEvent (Option α)) :=
  emitted step returns (initial cap α) steps

def reliableReturns (s : ZeroCopySpsc cap α) (a : ZeroCopyStep α) : List (FifoEvent (Option α)) :=
  (s.returns a).filter (FifoEvent.reliable (s.upToDate a))

def reliableHistory (cap : Capacity) (steps : List (ZeroCopyStep α)) : List (FifoEvent (Option α)) :=
  emitted step reliableReturns (initial cap α) steps

def SameEnds (s s' : ZeroCopySpsc cap α) : Prop :=
  s'.consumer = s.consumer ∧ s'.committed = s.committed ∧ s'.tailView = s.tailView

section Frame
variable (s : ZeroCopySpsc cap α)

theorem sameEnds_destroyObject (r : Reservation cap) : s.SameEnds (s.destroyObject r) := by
  unfold destroyObject
  split <;> exact ⟨rfl, rfl, rfl⟩

theorem sameEnds_afterCancel (i : Nat) (after : AfterCancel) : s.SameEnds (s.afterCancel i after) := by
  cases after with
  | keep => exact ⟨rfl, rfl, rfl⟩
  | destroy => exact ⟨rfl, rfl, rfl⟩
  | moveFrom src =>
    show s.SameEnds (s.moveFrom i src)
    unfold moveFrom
    split <;> exact ⟨rfl, rfl, rfl⟩

theorem sameEnds_cancel (i : Nat) (r : Reservation cap) (after : AfterCancel) : s.SameEnds (s.cancel i r after) := by
  unfold cancel
  split_ifs
  · exact s.sameEnds_afterCancel i after
  · exact s.sameEnds_destroyObject r
  · exact ⟨rfl, rfl, rfl⟩

theorem sameEnds_construct (i : Nat) (v : α) (r : Reservation cap) : s.SameEnds (s.construct i v r) := by
  unfold construct
  split_ifs
  · exact ⟨rfl, rfl, rfl⟩
  · exact s.sameEnds_destroyObject r
  · exact ⟨rfl, rfl, rfl⟩

theorem sameEnds_constructAt (i : Nat) (v : α) (r : Reservation cap) : s.SameEnds (s.constructAt i v r) := by
  unfold constructAt
  split <;> exact ⟨rfl, rfl, rfl⟩

theorem sameEnds_onHandle (i : Nat) {f : Reservation cap → ZeroCopySpsc cap α} (h : ∀ r, s.SameEnds (f r)) :
    s.SameEnds (s.onHandle i f) := by
  unfold onHandle
  cases s.handles i with
  | none => exact ⟨rfl, rfl, rfl⟩
  | some r => exact h r

end Frame

variable {s : ZeroCopySpsc cap α} {q : DelayedFifo (Option α)} {fresh : Prop}

theorem Inv.matches_loadTail {head : UInt64} {k : Nat} (hinv : Inv True s)
    (h : Matches s.consumer s.committed s.tailView q) (hpc : s.pc = .loadedHead head)
    (hfresh : fresh → k = s.ring.tail.stores.length) :
    let s' := s.producerStep (.loadTail k)
    ∃ q', Takes (DelayedFifo.Next fresh cap.toNat) q (s.producerReturns (.loadTail k)) q' ∧
      Matches s'.consumer s'.committed s'.tailView q' := by
  obtain ⟨hactive, -, rfl⟩ : s.activeReservation = true ∧ Held s.handles s.tailView s.committed.length s.staged none ∧
      head = UInt64.ofNat s.committed.length := by
    have hat := hinv.pc_at
    rwa [PcAt, hpc] at hat
  simp only [producerReturns, ZeroCopySpsc.producerStep, hpc]
  cases hload : s.ring.tail.load s.tailView k with
  | none =>
    dsimp only
    rw [hpc]
    exact ⟨q, rfl, h⟩
  | some tail =>
    obtain ⟨hk, hk', rfl⟩ := hinv.backed.inv.tail_counts.load_eq_some.mp hload
    dsimp only
    split_ifs with hfull hbusy hbusy
    · simp [ReservePc.isBusy] at hbusy
    · exact h.full hinv.backed.inv hk hk' hinv.backed.window hfull hfresh
    · exact ⟨q, rfl, h.loadTail hk⟩
    · -- the reservation that was made keeps the flag set
      exact absurd hactive (by simpa [create, setHandle, ReservePc.isBusy] using hbusy)

theorem Inv.matches_commit {i : Nat} (hinv : Inv True s) (h : Matches s.consumer s.committed s.tailView q)
    (hpc : s.pc = .idle) :
    let s' := s.producerStep (.commit i)
    ∃ q', Takes (DelayedFifo.Next fresh cap.toNat) q (s.producerReturns (.commit i)) q' ∧
      Matches s'.consumer s'.committed s'.tailView q' := by
  simp only [producerReturns, ZeroCopySpsc.producerStep, hpc, ZeroCopySpsc.onHandle]
  cases hr : s.handles i with
  | none =>
    rw [Option.elim_none, hpc]
    exact ⟨q, rfl, h⟩
  | some r =>
    rw [Option.elim_some]
    unfold ZeroCopySpsc.commit
    split_ifs with hskip hbusy hbusy
    · rw [hpc] at hbusy
      contradiction
    · exact ⟨q, rfl, h⟩
    · obtain ⟨hqueue, hbuilt⟩ : r.queue = true ∧ r.constructed = true := by simpa using hskip
      obtain ⟨-, hheld, howns⟩ := hinv.owns hr hpc hqueue
      obtain ⟨v, hv⟩ := Option.isSome_iff_exists.mp (howns.2.2.2.symm.trans hbuilt)
      rw [hv]
      exact h.push hinv.backed.view_le (hheld.room (by simp)) v
    · exact absurd rfl hbusy

theorem sameEnds_producerStep {a : ReserveStep α}
    (hload : ¬ ((∃ head, s.pc = .loadedHead head) ∧ ∃ k, a = .loadTail k))
    (hcommit : ¬ (s.pc = .idle ∧ ∃ i, a = .commit i)) : s.SameEnds (s.producerStep a) := by
  unfold ZeroCopySpsc.producerStep
  split
  case h_1 => exact ⟨rfl, rfl, rfl⟩
  case h_2 => split_ifs <;> exact ⟨rfl, rfl, rfl⟩
  case h_3 => exact ⟨rfl, rfl, rfl⟩
  case h_4 head k hpc => exact absurd ⟨⟨head, hpc⟩, k, rfl⟩ hload
  case h_5 i v hpc => exact s.sameEnds_onHandle i (s.sameEnds_construct i v)
  case h_6 i v hpc => exact s.sameEnds_onHandle i (s.sameEnds_constructAt i v)
  case h_7 => exact ⟨rfl, rfl, rfl⟩
  case h_8 i hpc => exact absurd ⟨hpc, i, rfl⟩ hcommit
  case h_9 i hpc => exact s.sameEnds_onHandle i fun r => ⟨rfl, rfl, rfl⟩
  case h_10 i hpc => exact s.sameEnds_onHandle i fun r => s.sameEnds_cancel i r .keep
  case h_11 i hpc => exact s.sameEnds_onHandle i fun r => s.sameEnds_cancel i r .destroy
  case h_12 src hpc => exact s.sameEnds_onHandle src fun r => ⟨rfl, rfl, rfl⟩
  case h_13 dst src hpc =>
    split_ifs
    · exact ⟨rfl, rfl, rfl⟩
    · exact s.sameEnds_onHandle dst fun r => s.sameEnds_cancel dst r (.moveFrom src)
  case h_14 i after hpc => exact s.sameEnds_onHandle i fun r => (s.release i r).sameEnds_afterCancel i after
  case h_15 => exact ⟨rfl, rfl, rfl⟩

theorem Inv.matches_producerStep (hinv : Inv True s) (h : Matches s.consumer s.committed s.tailView q)
    (a : ReserveStep α) (hfresh : fresh → s.upToDate (.producer a) = true) :
    let s' := s.producerStep a
    ∃ q', Takes (DelayedFifo.Next fresh cap.toNat) q (s.producerReturns a) q' ∧
      Matches s'.consumer s'.committed s'.tailView q' := by
  by_cases hload : (∃ head, s.pc = .loadedHead head) ∧ ∃ k, a = .loadTail k
  · obtain ⟨⟨head, hpc⟩, k, rfl⟩ := hload
    exact hinv.matches_loadTail h hpc fun hf => of_decide_eq_true (hfresh hf)
  by_cases hcommit : s.pc = .idle ∧ ∃ i, a = .commit i
  · obtain ⟨hpc, i, rfl⟩ := hcommit
    exact hinv.matches_commit h hpc
  have hsilent : s.producerReturns a = [] := by
    unfold producerReturns
    split
    case h_1 head k hpc => exact absurd ⟨⟨head, hpc⟩, k, rfl⟩ hload
    case h_2 i hpc => exact absurd ⟨hpc, i, rfl⟩ hcommit
    case h_3 => rfl
  obtain ⟨hconsumer, hcommitted, hview⟩ := sameEnds_producerStep hload hcommit
  dsimp only
  rw [hsilent, hconsumer, hcommitted, hview]
  exact ⟨q, rfl, h⟩

structure Refines (s : ZeroCopySpsc cap α) (q : DelayedFifo (Option α)) : Prop where
  inv : Inv True s
  isMatch : Matches s.consumer s.committed s.tailView q

/-- A step that the caller may take: one that obeys the contract of `construct`, with a move
that does not throw. -/
def Permitted (s : ZeroCopySpsc cap α) (a : ZeroCopyStep α) : Prop :=
  s.allowed a = true ∧ ∀ residue, a ≠ .consumer (.moveThrows residue)

theorem Refines.step (h : s.Refines q) {a : ZeroCopyStep α} (ha : s.Permitted a)
    (hfresh : fresh → s.upToDate a = true) :
    ∃ q', Takes (DelayedFifo.Next fresh cap.toNat) q (s.returns a) q' ∧ (s.step a).Refines q' := by
  obtain ⟨hinv, hmatch⟩ := h
  have hinv' := hinv.step ha.1 fun _ => ha.2
  cases a with
  | producer a =>
    obtain ⟨q', htakes, hmatch'⟩ := hinv.matches_producerStep hmatch a hfresh
    exact ⟨q', htakes, hinv', hmatch'⟩
  | consumer a =>
    obtain ⟨q', htakes, hmatch'⟩ := hmatch.popStep hinv.backed.inv (hinv.backed.holds trivial) a hfresh
    exact ⟨q', htakes, hinv', hmatch'⟩

theorem along_allowed {steps : List (ZeroCopyStep α)} (hobeys : s.obeys steps = true) :
    Along step (fun s a => s.allowed a = true) s steps := by
  induction steps generalizing s with
  | nil => trivial
  | cons a steps ih =>
    obtain ⟨ha, hrest⟩ := Bool.and_eq_true_iff.mp hobeys
    exact ⟨ha, ih hrest⟩

theorem refines_initial (cap : Capacity) (α : Type*) : (initial cap α).Refines {} :=
  ⟨inv_initial True cap α, matches_initial α⟩

end ZeroCopySpsc
end AetherStream
