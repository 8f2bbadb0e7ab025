import AetherStream.Queue.RingInvariant

/-! `ZeroCopySpsc`: the operations on `Reservation` handles, split where the consumer can come
in between, interleaved with the consumer of `Ring`. Only the producer thread touches the
handles and `active_reservation_`, so what it does to them between two accesses to the ring
is one step. -/

namespace AetherStream
open Basis

/-- `queue_` is null or the one queue there is. -/
structure Reservation (cap : Capacity) where
  queue : Bool := false
  index : UInt64 := 0
  ptr : Option (Fin cap.toNat) := none
  constructed : Bool := false

def Reservation.cleared {cap : Capacity} (r : Reservation cap) : Reservation cap :=
  { r with queue := false, ptr := none, constructed := false }

def Reservation.get {cap : Capacity} (r : Reservation cap) : Option (Fin cap.toNat) :=
  if r.constructed then r.ptr else none

/-- What follows the `cancel` of a handle: nothing, the end of its destructor, or the
`move_from` of an assignment. -/
inductive AfterCancel where
  | keep
  | destroy
  | moveFrom (src : Nat)
  deriving DecidableEq, Repr

inductive ReservePc (α : Type*) where
  | idle
  | reserving
  | loadedHead (head : UInt64)
  | constructing (i : Nat) (v : α)
  | committing (i : Nat)
  | cancelling (i : Nat) (after : AfterCancel)
  deriving DecidableEq, Repr

def ReservePc.isBusy {α : Type*} : ReservePc α → Bool
  | idle => false
  | _ => true

inductive ReserveStep (α : Type*) where
  | defaultConstruct
  | tryReserve
  | loadHead
  | loadTail (k : Nat)
  | construct (i : Nat) (v : α)
  | constructAt
  | constructThrows
  | commit (i : Nat)
  | cancel (i : Nat)
  | moveConstruct (src : Nat)
  | moveAssign (dst src : Nat)
  | destroy (i : Nat)
  | release
  deriving DecidableEq, Repr

inductive ZeroCopyStep (α : Type*) where
  | producer (a : ReserveStep α)
  | consumer (a : PopStep α)
  deriving DecidableEq, Repr

/-- Handles are numbered as they are made and gone once destroyed. `staged` is the value last
constructed in the current reservation, `committed` what was published, and `misused` says
that `construct` was applied to a null pointer. -/
structure ZeroCopySpsc (cap : Capacity) (α : Type*) where
  ring : Ring cap α
  activeReservation : Bool := false
  handles : Nat → Option (Reservation cap) := fun _ => none
  made : Nat := 0
  pc : ReservePc α := .idle
  tailView : Nat := 0
  staged : Option α := none
  committed : List α := []
  misused : Bool := false
  consumer : Consumer α

namespace ZeroCopySpsc
variable {cap : Capacity} {α : Type*}

def initial (cap : Capacity) (α : Type*) : ZeroCopySpsc cap α where
  ring := .empty cap α
  consumer := .initial α

def setHandle (s : ZeroCopySpsc cap α) (i : Nat) (r : Option (Reservation cap)) : ZeroCopySpsc cap α :=
  { s with handles := Function.update s.handles i r }

def create (s : ZeroCopySpsc cap α) (r : Reservation cap) : ZeroCopySpsc cap α :=
  { s.setHandle s.made (some r) with made := s.made + 1 }

def destroyObject (s : ZeroCopySpsc cap α) (r : Reservation cap) : ZeroCopySpsc cap α :=
  match r.ptr with
  | some p => { s with ring.buffer := s.ring.buffer.destroyAt p, staged := none }
  | none => { s with misused := true }

def moveFrom (s : ZeroCopySpsc cap α) (dst src : Nat) : ZeroCopySpsc cap α :=
  match s.handles src with
  | none => s
  | some r => (s.setHandle dst (some r)).setHandle src (some r.cleared)

def afterCancel (s : ZeroCopySpsc cap α) (i : Nat) : AfterCancel → ZeroCopySpsc cap α
  | .keep => s
  | .destroy => s.setHandle i none
  | .moveFrom src => s.moveFrom i src

/-- `cancel` up to its store to `active_reservation_`, if it comes to that. -/
def cancel (s : ZeroCopySpsc cap α) (i : Nat) (r : Reservation cap) (after : AfterCancel) : ZeroCopySpsc cap α :=
  if !r.queue then s.afterCancel i after
  else { (if r.constructed then s.destroyObject r else s) with pc := .cancelling i after }

def construct (s : ZeroCopySpsc cap α) (i : Nat) (v : α) (r : Reservation cap) : ZeroCopySpsc cap α :=
  if r.ptr.isNone then { s with misused := true }
  else if r.constructed then
    { (s.destroyObject r).setHandle i (some { r with constructed := false }) with pc := .constructing i v }
  else { s with pc := .constructing i v }

def constructAt (s : ZeroCopySpsc cap α) (i : Nat) (v : α) (r : Reservation cap) : ZeroCopySpsc cap α :=
  match r.ptr with
  | none => { s with misused := true, pc := .idle }
  | some p =>
    { s.setHandle i (some { r with constructed := true }) with
      ring.buffer := s.ring.buffer.constructAt p v, staged := some v, pc := .idle }

def commit (s : ZeroCopySpsc cap α) (i : Nat) (r : Reservation cap) : ZeroCopySpsc cap α :=
  if !r.queue || !r.constructed then s
  else { s with
    ring.head := s.ring.head.store (r.index + 1), committed := s.committed ++ s.staged.toList
    staged := none, pc := .committing i }

def release (s : ZeroCopySpsc cap α) (i : Nat) (r : Reservation cap) : ZeroCopySpsc cap α :=
  { s.setHandle i (some r.cleared) with activeReservation := false, pc := .idle }

def onHandle (s : ZeroCopySpsc cap α) (i : Nat) (f : Reservation cap → ZeroCopySpsc cap α) : ZeroCopySpsc cap α :=
  (s.handles i).elim s f

def producerStep (s : ZeroCopySpsc cap α) (a : ReserveStep α) : ZeroCopySpsc cap α :=
  match s.pc, a with
  | .idle, .defaultConstruct => s.create {}
  | .idle, .tryReserve =>
    if s.activeReservation then s else { s with activeReservation := true, pc := .reserving }
  | .reserving, .loadHead => { s with pc := .loadedHead s.ring.head.current }
  | .loadedHead head, .loadTail k =>
    match s.ring.tail.load s.tailView k with
    | none => s
    | some tail =>
      let s := { s with pc := .idle, tailView := k }
      if cap.size ≤ head - tail then { s with activeReservation := false }
      else s.create { queue := true, index := head, ptr := some (cap.slotPtr head) }
  | .idle, .construct i v => s.onHandle i (s.construct i v)
  | .constructing i v, .constructAt => s.onHandle i (s.constructAt i v)
  | .constructing _ _, .constructThrows => { s with pc := .idle }
  | .idle, .commit i => s.onHandle i (s.commit i)
  | .committing i, .release => s.onHandle i (s.release i)
  | .idle, .cancel i => s.onHandle i fun r => s.cancel i r .keep
  | .idle, .destroy i => s.onHandle i fun r => s.cancel i r .destroy
  | .idle, .moveConstruct src => s.onHandle src fun r => (s.setHandle src (some r.cleared)).create r
  | .idle, .moveAssign dst src =>
    if dst = src ∨ (s.handles src).isNone then s else s.onHandle dst fun r => s.cancel dst r (.moveFrom src)
  | .cancelling i after, .release => s.onHandle i fun r => (s.release i r).afterCancel i after
  | _, _ => s

def step (s : ZeroCopySpsc cap α) : ZeroCopyStep α → ZeroCopySpsc cap α
  | .producer a => s.producerStep a
  | .consumer a =>
    let (ring, consumer) := s.ring.popStep a s.consumer
    { s with ring := ring, consumer := consumer }

def run (s : ZeroCopySpsc cap α) (steps : List (ZeroCopyStep α)) : ZeroCopySpsc cap α := steps.foldl step s

/-- `construct` is called only on a handle that holds a reservation. -/
def allowed (s : ZeroCopySpsc cap α) : ZeroCopyStep α → Bool
  | .producer (.construct i _) => s.pc.isBusy || (s.handles i).all (·.queue)
  | _ => true

def obeys (s : ZeroCopySpsc cap α) : List (ZeroCopyStep α) → Bool
  | [] => true
  | a :: steps => s.allowed a && obeys (s.step a) steps

end ZeroCopySpsc
end AetherStream
