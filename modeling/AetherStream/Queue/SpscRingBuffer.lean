import AetherStream.Queue.RingInvariant

/-! `SpscRingBuffer`: the producer's `try_emplace`, the interleavings of one producer with
one consumer, and the two calls run to completion. -/

namespace AetherStream
open Basis ModularCounter

inductive EmplacePc (α : Type*) where
  | idle
  | loadedHead (v : α) (head : UInt64)
  | hasRoom (v : α) (head : UInt64)
  | constructed (v : α) (head : UInt64)
  deriving DecidableEq, Repr

inductive EmplaceStep (α : Type*) where
  | loadHead (v : α)
  | loadTail (k : Nat)
  | constructAt
  | constructThrows
  | storeHead
  deriving DecidableEq, Repr

structure Producer (α : Type*) where
  pc : EmplacePc α
  tailView : Nat
  accepted : List α

structure SpscRingBuffer (cap : Capacity) (α : Type*) where
  ring : Ring cap α
  producer : Producer α
  consumer : Consumer α

inductive SpscStep (α : Type*) where
  | producer (a : EmplaceStep α)
  | consumer (a : PopStep α)
  deriving DecidableEq, Repr

namespace Ring
variable {cap : Capacity} {α : Type*}

def emplaceStep (a : EmplaceStep α) (r : Ring cap α) (p : Producer α) :
    Ring cap α × Producer α × Option Bool :=
  match p.pc, a with
  | .idle, .loadHead v => (r, { p with pc := .loadedHead v r.head.current }, none)
  | .loadedHead v head, .loadTail k =>
    match r.tail.load p.tailView k with
    | none => (r, p, none)
    | some tail =>
      if cap.size ≤ head - tail then (r, { p with pc := .idle, tailView := k }, some false)
      else (r, { p with pc := .hasRoom v head, tailView := k }, none)
  | .hasRoom v head, .constructAt =>
    ({ r with buffer := r.buffer.constructAt (cap.slotPtr head) v },
      { p with pc := .constructed v head }, none)
  | .hasRoom _ _, .constructThrows => (r, { p with pc := .idle }, none)
  | .constructed v head, .storeHead =>
    ({ r with head := r.head.store (head + 1) },
      { p with pc := .idle, accepted := p.accepted ++ [v] }, some true)
  | _, _ => (r, p, none)

def tryEmplace (r : Ring cap α) (v : α) : Bool × Ring cap α :=
  if cap.size ≤ r.head.current - r.tail.current then (false, r)
  else (true, { r with
    buffer := r.buffer.constructAt (cap.slotPtr r.head.current) v
    head := r.head.store (r.head.current + 1) })

/-- `try_pop` with nobody else running: `none` is the result `false`. -/
def tryPop (r : Ring cap α) : Option (Option α) × Ring cap α :=
  if r.tail.current = r.head.current then (none, r)
  else
    let slot := cap.slotPtr r.tail.current
    (some (r.buffer.slots slot).value, { r with
      buffer := (r.buffer.moveLeaving none slot).destroyAt slot
      tail := r.tail.store (r.tail.current + 1) })

def isEmpty (r : Ring cap α) : Bool := r.head.current == r.tail.current

def isFull (r : Ring cap α) : Bool := decide (cap.size ≤ r.sizeApprox)

end Ring

namespace EmplacePc
variable {α : Type*}

def built : EmplacePc α → Bool
  | constructed _ _ => true
  | _ => false

def pending : EmplacePc α → List α
  | constructed v _ => [v]
  | _ => []

def At (cap : Capacity) (h view : Nat) : EmplacePc α → Prop
  | idle => True
  | loadedHead _ head => head = UInt64.ofNat h
  | hasRoom _ head | constructed _ head => head = UInt64.ofNat h ∧ h < view + cap.toNat

end EmplacePc

inductive PushStep where
  | loadHead
  | loadTail (k : Nat)
  | constructAt
  | storeHead
  deriving DecidableEq, Repr

def PushStep.emplace {α : Type*} (v : α) : PushStep → EmplaceStep α
  | loadHead => .loadHead v
  | loadTail k => .loadTail k
  | constructAt => .constructAt
  | storeHead => .storeHead

namespace SpscRingBuffer
variable {cap : Capacity} {α : Type*}

def initial (cap : Capacity) (α : Type*) : SpscRingBuffer cap α :=
  ⟨.empty cap α, ⟨.idle, 0, []⟩, .initial α⟩

def step (s : SpscRingBuffer cap α) : SpscStep α → SpscRingBuffer cap α
  | .producer a =>
    let (r, p, _) := s.ring.emplaceStep a s.producer
    { s with ring := r, producer := p }
  | .consumer a =>
    let (r, c) := s.ring.popStep a s.consumer
    { s with ring := r, consumer := c }

def run (s : SpscRingBuffer cap α) (steps : List (SpscStep α)) : SpscRingBuffer cap α :=
  steps.foldl step s

def Idle (s : SpscRingBuffer cap α) : Prop := s.producer.pc = .idle ∧ s.consumer.pc = .idle

def values (s : SpscRingBuffer cap α) : List α := s.producer.accepted ++ s.producer.pc.pending

structure Inv (s : SpscRingBuffer cap α) : Prop where
  ring : s.ring.Inv s.consumer s.producer.accepted.length s.producer.pc.built
  view_le : s.producer.tailView ≤ s.consumer.popped
  window : s.producer.accepted.length ≤ s.producer.tailView + cap.toNat
  pc_at : s.producer.pc.At cap s.producer.accepted.length s.producer.tailView

theorem inv_initial (cap : Capacity) (α : Type*) : (initial cap α).Inv :=
  ⟨Ring.inv_empty cap α, le_rfl, Nat.zero_le _, trivial⟩

end SpscRingBuffer

end AetherStream
