import Mathlib.Data.List.Basic
import Mathlib.Data.UInt

/-! Operations of the machine that have a precondition or lose a part of their result, as
operations that fail in these cases. A program written with them that does not fail is safe. -/

namespace Basis.Checked

section Span
variable {β : Type*}

def subspan (span : List β) (offset count : ℕ) : Option (List β) :=
  if offset + count ≤ span.length then some ((span.drop offset).take count) else none

theorem subspan_eq_some {span : List β} {offset count : ℕ} (h : offset + count ≤ span.length) :
    subspan span offset count = some ((span.drop offset).take count) := if_pos h

end Span

def add (a b : UInt64) : Option UInt64 := if a.toNat + b.toNat < 2 ^ 64 then some (a + b) else none

theorem add_eq_some {a b : UInt64} (h : a.toNat + b.toNat < 2 ^ 64) : add a b = some (a + b) := if_pos h

def sub (a b : UInt64) : Option UInt64 := if b ≤ a then some (a - b) else none

theorem sub_eq_some {a b : UInt64} (h : b ≤ a) : sub a b = some (a - b) := if_pos h

def narrow (a : UInt64) : Option UInt32 := if a.toNat < 2 ^ 32 then some a.toUInt32 else none

theorem narrow_eq_some {a : UInt64} (h : a.toNat < 2 ^ 32) : narrow a = some a.toUInt32 := if_pos h

end Basis.Checked
