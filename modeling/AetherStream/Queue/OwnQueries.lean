import AetherStream.Queue.Linearizable

/-! `size_approx` called by the producer or the consumer itself, between its own calls. It reads
its own counter and, like the next call of the same thread, the other one no older than it has
seen it before. -/

namespace AetherStream.SpscRingBuffer
open Basis ModularCounter
variable {cap : Capacity} {α : Type*} {s s' : SpscRingBuffer cap α}

def seen (s : SpscRingBuffer cap α) : DelayedFifo (Option α) where
  values := s.producer.accepted.map some
  taken := s.consumer.popped
  takenSeen := s.producer.tailView
  pushedSeen := s.consumer.headView

end AetherStream.SpscRingBuffer
