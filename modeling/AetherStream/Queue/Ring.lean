import AetherStream.Basis.AtomicCell
import AetherStream.Basis.ObjectStorage

/-! The memory that `SpscRingBuffer` and `ZeroCopySpsc` lay out the same way (`buffer_`,
`head_`, `tail_`), and the consumer's side, which the two classes spell out identically.
A step that is not possible at the consumer's program point leaves everything alone, so
every list of steps is a schedule. -/

namespace AetherStream
open Basis

structure Capacity where
  size : UInt64
  pow_two : size &&& (size - 1) = 0
  two_le : 2 ≤ size

namespace Capacity

def least : Capacity := ⟨2, by decide, by decide⟩

def toNat (cap : Capacity) : Nat := cap.size.toNat

def mask (cap : Capacity) : UInt64 := cap.size - 1

theorem one_le (cap : Capacity) : 1 ≤ cap.size :=
  UInt64.le_trans (by decide) cap.two_le

theorem two_le_toNat (cap : Capacity) : 2 ≤ cap.toNat := UInt64.le_iff_toNat_le.mp cap.two_le

theorem toNat_lt (cap : Capacity) : cap.toNat < 2 ^ 64 := cap.size.toNat_lt

instance (cap : Capacity) : NeZero cap.toNat := ⟨by have := cap.two_le_toNat; omega⟩

def slotPtr (cap : Capacity) (index : UInt64) : Fin cap.toNat :=
  ⟨(index &&& cap.mask).toNat, ModularCounter.toNat_and_mask_lt cap.one_le index⟩

theorem slotPtr_ofNat (cap : Capacity) (n : Nat) :
    cap.slotPtr (UInt64.ofNat n) = Fin.ofNat cap.toNat n :=
  Fin.ext (ModularCounter.toNat_and_mask cap.pow_two cap.one_le n)

/-- The capacity test compares the logical distance: a stale `tail_` is never more than
`Capacity` behind the producer, so the subtraction cannot alias. -/
theorem size_le_sub_iff (cap : Capacity) {h k : Nat} (hk : k ≤ h) (hwin : h ≤ k + cap.toNat) :
    cap.size ≤ UInt64.ofNat h - UInt64.ofNat k ↔ k + cap.toNat ≤ h := by
  have hlt := cap.toNat_lt
  rw [UInt64.le_iff_toNat_le, ModularCounter.toNat_ofNat_sub hk (by omega)]
  show cap.toNat ≤ h - k ↔ _
  omega

end Capacity

structure Ring (cap : Capacity) (α : Type*) where
  buffer : Storage cap.toNat α
  head : AtomicCell UInt64
  tail : AtomicCell UInt64

/-- Program points of `try_pop` / `try_consume`; `out` is what the move assignment wrote. -/
inductive PopPc (α : Type*) where
  | idle
  | loadedTail (tail : UInt64)
  | nonEmpty (tail : UInt64)
  | movedOut (tail : UInt64) (out : Option α)
  | destroyed (tail : UInt64) (out : Option α)
  deriving DecidableEq, Repr

inductive PopStep (α : Type*) where
  | loadTail
  | loadHead (k : Nat)
  | moveOut
  | moveThrows (residue : Option α)
  | destroyAt
  | storeTail
  deriving DecidableEq, Repr

structure Consumer (α : Type*) where
  pc : PopPc α
  headView : Nat
  returned : List (Option α)

namespace Ring
variable {cap : Capacity} {α : Type*}

def empty (cap : Capacity) (α : Type*) : Ring cap α := ⟨Storage.empty cap.toNat α, ⟨0, []⟩, ⟨0, []⟩⟩

def popStep (a : PopStep α) (r : Ring cap α) (c : Consumer α) : Ring cap α × Consumer α :=
  match c.pc, a with
  | .idle, .loadTail => (r, { c with pc := .loadedTail r.tail.current })
  | .loadedTail tail, .loadHead k =>
    match r.head.load c.headView k with
    | none => (r, c)
    | some head =>
      if tail = head then (r, { c with pc := .idle, headView := k })
      else (r, { c with pc := .nonEmpty tail, headView := k })
  | .nonEmpty tail, .moveOut =>
    ({ r with buffer := r.buffer.moveLeaving none (cap.slotPtr tail) },
      { c with pc := .movedOut tail (r.buffer.slots (cap.slotPtr tail)).value })
  | .nonEmpty tail, .moveThrows residue =>
    ({ r with buffer := r.buffer.moveLeaving residue (cap.slotPtr tail) }, { c with pc := .idle })
  | .movedOut tail out, .destroyAt =>
    ({ r with buffer := r.buffer.destroyAt (cap.slotPtr tail) }, { c with pc := .destroyed tail out })
  | .destroyed tail out, .storeTail =>
    ({ r with tail := r.tail.store (tail + 1) },
      { c with pc := .idle, returned := c.returned ++ [out] })
  | _, _ => (r, c)

/-- The `while (tail != head)` loop of the destructors, cut after `fuel` iterations. -/
def destroyLoop (head : UInt64) : Nat → UInt64 → Storage cap.toNat α → Option (Storage cap.toNat α)
  | 0, _, _ => none
  | fuel + 1, tail, st =>
    if tail = head then some st
    else destroyLoop head fuel (tail + 1) (st.destroyAt (cap.slotPtr tail))

def destroyRemaining (fuel : Nat) (r : Ring cap α) : Option (Storage cap.toNat α) :=
  destroyLoop r.head.current fuel r.tail.current r.buffer

def contents (r : Ring cap α) : List (Option α) :=
  (List.range (r.head.current - r.tail.current).toNat).map fun k =>
    (r.buffer.slots (cap.slotPtr (r.tail.current + UInt64.ofNat k))).value

def sizeApprox (r : Ring cap α) : UInt64 := r.head.current - r.tail.current

end Ring
end AetherStream
