import AetherStream.Queue.SpscSafety

/-! `size_approx` and `full` called by further threads while the producer and the consumer are
running. The two loads of such a call are separate steps, each answered by the newest store. -/

namespace AetherStream
open Basis ModularCounter
variable {cap : Capacity} {α : Type*}

/-- A call between its loads: the local variable `head`, and what has happened to the queue
since that load. -/
structure SizeCall where
  head : UInt64
  -- the length of the queue at the load, how many values were popped since, and whether it has
  -- held `Capacity` values at some instant since
  size : Nat
  pops : Nat
  heldCapacity : Bool
  deriving DecidableEq, Repr

structure SizeReturn where
  call : SizeCall
  sizeApprox : UInt64
  deriving DecidableEq, Repr

namespace SpscRingBuffer

def held (q : SpscRingBuffer cap α) : Nat := q.ring.contents.length

def loadHead (q : SpscRingBuffer cap α) : SizeCall :=
  { head := q.ring.head.current, size := q.held, pops := 0, heldCapacity := q.held == cap.toNat }

def loadTail (q : SpscRingBuffer cap α) (c : SizeCall) : SizeReturn := ⟨c, c.head - q.ring.tail.current⟩

def watch (q q' : SpscRingBuffer cap α) (c : SizeCall) : SizeCall :=
  { c with
    pops := c.pops + (q'.consumer.popped - q.consumer.popped)
    heldCapacity := c.heldCapacity || q'.held == cap.toNat }

end SpscRingBuffer

namespace SizeReturn

def full (cap : Capacity) (r : SizeReturn) : Bool := decide (cap.size ≤ r.sizeApprox)

def Sound (cap : Capacity) (r : SizeReturn) : Prop :=
  r.sizeApprox ≤ cap.size ∧ (r.full cap = true → r.call.heldCapacity = true)

end SizeReturn

structure Observed (cap : Capacity) (α : Type*) where
  queue : SpscRingBuffer cap α
  calls : Nat → Option SizeCall
  returns : List SizeReturn

inductive ObservedStep (α : Type*) where
  | queue (a : SpscStep α)
  | loadHead (thread : Nat)
  | loadTail (thread : Nat)
  deriving DecidableEq, Repr

namespace Observed

def initial (cap : Capacity) (α : Type*) : Observed cap α := ⟨.initial cap α, fun _ => none, []⟩

def step (s : Observed cap α) : ObservedStep α → Observed cap α
  | .queue a =>
    let queue := s.queue.step a
    { s with queue := queue, calls := fun i => (s.calls i).map (s.queue.watch queue) }
  | .loadHead i =>
    match s.calls i with
    | some _ => s
    | none => { s with calls := Function.update s.calls i (some s.queue.loadHead) }
  | .loadTail i =>
    match s.calls i with
    | some c => { s with calls := Function.update s.calls i none, returns := s.returns ++ [s.queue.loadTail c] }
    | none => s

def run (s : Observed cap α) (steps : List (ObservedStep α)) : Observed cap α := steps.foldl step s

end Observed

theorem SpscRingBuffer.Inv.held_eq {q : SpscRingBuffer cap α} (hinv : q.Inv) :
    q.held = q.producer.accepted.length - q.consumer.popped := by
  have hroom := hinv.ring.room
  have hlt := cap.toNat_lt
  rw [held, Ring.contents, List.length_map, List.length_range, hinv.ring.head_counts.current_eq,
    hinv.ring.tail_counts.current_eq]
  exact toNat_ofNat_sub hinv.ring.popped_le_head (by omega)

theorem SpscRingBuffer.popped_le_step (q : SpscRingBuffer cap α) (a : SpscStep α) :
    q.consumer.popped ≤ (q.step a).consumer.popped := by
  cases a with
  | producer a => exact le_rfl
  | consumer a => exact Ring.popped_le_popStep a q.ring q.consumer

def SizeCall.Tracks (c : SizeCall) (q : SpscRingBuffer cap α) : Prop :=
  ∃ popped, c.head = UInt64.ofNat (popped + c.size) ∧ q.consumer.popped = popped + c.pops ∧
    c.size ≤ cap.toNat ∧ (c.size = cap.toNat → c.heldCapacity = true)

theorem SpscRingBuffer.Inv.tracks_loadHead {q : SpscRingBuffer cap α} (hinv : q.Inv) : q.loadHead.Tracks q := by
  have hle := hinv.ring.popped_le_head
  have hroom := hinv.ring.room
  have hheld := hinv.held_eq
  refine ⟨q.consumer.popped, ?_, rfl, ?_, ?_⟩
  · show q.ring.head.current = _
    rw [hinv.ring.head_counts.current_eq, loadHead, hheld, Nat.add_sub_cancel' hle]
  · show q.held ≤ _
    omega
  · exact fun h => beq_iff_eq.mpr h

theorem SizeCall.Tracks.watch {c : SizeCall} {q : SpscRingBuffer cap α} (h : c.Tracks q) (a : SpscStep α) :
    (q.watch (q.step a) c).Tracks (q.step a) := by
  obtain ⟨popped, hhead, hpopped, hsize, hheld⟩ := h
  have hle := q.popped_le_step a
  refine ⟨popped, hhead, ?_, hsize, fun hcap => ?_⟩
  · show _ = popped + (c.pops + _)
    omega
  · show (c.heldCapacity || _) = true
    rw [hheld hcap, Bool.true_or]

def SizeReturn.Tells (cap : Capacity) (r : SizeReturn) : Prop :=
  r.sizeApprox = UInt64.ofNat r.call.size - UInt64.ofNat r.call.pops ∧
    r.call.size ≤ cap.toNat ∧ (r.call.size = cap.toNat → r.call.heldCapacity = true)

theorem SizeCall.Tracks.tells {c : SizeCall} {q : SpscRingBuffer cap α} (h : c.Tracks q) (hinv : q.Inv) :
    (q.loadTail c).Tells cap := by
  obtain ⟨popped, hhead, hpopped, hsize, hheld⟩ := h
  refine ⟨?_, hsize, hheld⟩
  show c.head - q.ring.tail.current = UInt64.ofNat c.size - UInt64.ofNat c.pops
  rw [hhead, hinv.ring.tail_counts.current_eq, hpopped, ofNat_add_sub_ofNat_add]

namespace Observed

structure Inv (s : Observed cap α) : Prop where
  queue : s.queue.Inv
  calls : ∀ i, ∀ c ∈ s.calls i, c.Tracks s.queue
  returns : ∀ r ∈ s.returns, r.Tells cap

theorem Inv.step {s : Observed cap α} (h : s.Inv) (a : ObservedStep α) : (s.step a).Inv := by
  cases a with
  | queue a =>
    refine ⟨h.queue.step a, fun i c hc => ?_, h.returns⟩
    obtain ⟨c, hcall, rfl⟩ := Option.map_eq_some_iff.mp hc
    exact (h.calls i c hcall).watch a
  | loadHead i =>
    rw [Observed.step]
    split
    · exact h
    · refine ⟨h.queue, (Function.forall_update_iff s.calls fun _ call => ∀ c ∈ call, c.Tracks s.queue).mpr
        ⟨fun c hc => ?_, fun j _ => h.calls j⟩, h.returns⟩
      obtain rfl : s.queue.loadHead = c := Option.some.inj hc
      exact h.queue.tracks_loadHead
  | loadTail i =>
    rw [Observed.step]
    split
    case h_1 c hcall =>
      refine ⟨h.queue, (Function.forall_update_iff s.calls fun _ call => ∀ c ∈ call, c.Tracks s.queue).mpr
        ⟨fun c hc => ?_, fun j _ => h.calls j⟩, ?_⟩
      · contradiction
      · intro r hr
        rcases List.mem_append.mp hr with hold | hnew
        · exact h.returns r hold
        · rw [List.mem_singleton.mp hnew]
          exact (h.calls i c hcall).tells h.queue
    case h_2 => exact h

theorem inv_run (cap : Capacity) (steps : List (ObservedStep α)) : ((initial cap α).run steps).Inv := by
  refine List.foldlRecOn (motive := Inv) steps Observed.step ⟨SpscRingBuffer.inv_initial cap α, ?_, ?_⟩
    fun _ h a _ => h.step a
  · exact fun i c hc => by contradiction
  · exact fun r hr => absurd hr List.not_mem_nil

end Observed

section Tells
variable {r : SizeReturn} (h : r.Tells cap)
include h

theorem SizeReturn.Tells.sound (hpops : r.call.pops ≤ r.call.size) : r.Sound cap := by
  obtain ⟨heq, hsize, hheld⟩ := h
  have hlt := cap.toNat_lt
  have hvalue : r.sizeApprox.toNat = r.call.size - r.call.pops := by
    rw [heq]
    exact toNat_ofNat_sub hpops (by omega)
  refine ⟨?_, fun hfull => ?_⟩
  · rw [UInt64.le_iff_toNat_le, hvalue]
    exact (Nat.sub_le _ _).trans hsize
  · -- the queue was full at the first load, and nothing has been popped since
    have hge : cap.toNat ≤ r.sizeApprox.toNat := UInt64.le_iff_toNat_le.mp (of_decide_eq_true hfull)
    exact hheld (by omega)

theorem SizeReturn.Tells.not_sound (hpops : r.call.size < r.call.pops)
    (hshort : r.call.pops + cap.toNat < r.call.size + 2 ^ 64) : ¬ r.Sound cap := by
  obtain ⟨heq, -, -⟩ := h
  rintro ⟨hle, -⟩
  rw [UInt64.le_iff_toNat_le, heq, toNat_ofNat_sub_of_lt hpops (by omega)] at hle
  have hcap : cap.size.toNat = cap.toNat := rfl
  omega

end Tells

/-- A call is right if no more values are popped between its loads than the queue held at the
first one. Otherwise the second counter is past the first, and the size that is returned is
far above the capacity until the difference comes round to `2 ^ 64`. -/
theorem Observed.sizeApprox_sound_iff (cap : Capacity) (steps : List (ObservedStep α)) :
    ∀ r ∈ ((initial cap α).run steps).returns,
      (r.call.pops ≤ r.call.size → r.Sound cap) ∧
        (r.call.pops + cap.toNat < r.call.size + 2 ^ 64 → (r.Sound cap ↔ r.call.pops ≤ r.call.size)) := by
  intro r hr
  have h := (inv_run cap steps).returns r hr
  refine ⟨h.sound, fun hshort => ⟨fun hsound => ?_, h.sound⟩⟩
  by_contra hpops
  exact h.not_sound (not_le.mp hpops) hshort hsound

namespace Observed
open SpscRingBuffer

def calledWhilePushing : List (ObservedStep Nat) :=
  (onePush 7).map .queue ++ [.loadHead 0] ++ (onePush 8).map .queue ++ [.loadTail 0]

theorem sizeApprox_sound_calledWhilePushing :
    ((initial .least Nat).run calledWhilePushing).returns = [⟨⟨1, 1, 0, true⟩, 1⟩] ∧
      SizeReturn.Sound .least ⟨⟨1, 1, 0, true⟩, 1⟩ := by
  have hreturns : ((initial .least Nat).run calledWhilePushing).returns = [⟨⟨1, 1, 0, true⟩, 1⟩] := by
    decide +kernel
  refine ⟨hreturns, ?_⟩
  have hmem : ⟨⟨1, 1, 0, true⟩, 1⟩ ∈ ((initial .least Nat).run calledWhilePushing).returns := by
    rw [hreturns]
    exact List.mem_singleton_self _
  exact (sizeApprox_sound_iff .least calledWhilePushing _ hmem).1 (by decide)

/-- A value is pushed and popped between the loads. The queue never holds two values, yet the
size is `2 ^ 64 - 1` and `full` returns true. -/
theorem not_sound_passing_value :
    let steps : List (ObservedStep Nat) :=
      [.loadHead 0] ++ (onePush 7).map .queue ++ onePop.map .queue ++ [.loadTail 0]
    ∃ r ∈ ((initial .least Nat).run steps).returns,
      r.sizeApprox.toNat = 2 ^ 64 - 1 ∧ r.full .least = true ∧ r.call.heldCapacity = false ∧ ¬ r.Sound .least := by
  refine ⟨⟨⟨0, 0, 1, false⟩, 0xFFFFFFFFFFFFFFFF⟩, by decide +kernel, by decide, by decide, rfl, ?_⟩
  exact fun h => absurd h.1 (by decide)

end Observed
end AetherStream
