import AetherStream.Basis.ModularCounter
import Mathlib.Data.List.Range

/-! A shared atomic location as the order of its stores. The owner of the location reads
its newest store; any other thread keeps a view, the position of the store it last saw,
and may be answered by every store at or after that position. -/

namespace Basis

structure AtomicCell (β : Type*) where
  initial : β
  stores : List β

namespace AtomicCell
variable {β : Type*}

def history (c : AtomicCell β) : List β := c.initial :: c.stores

def current (c : AtomicCell β) : β := c.stores.getLastD c.initial

def store (c : AtomicCell β) (v : β) : AtomicCell β := { c with stores := c.stores ++ [v] }

/-- The answer from position `k` to a thread whose last answer came from `view`. -/
def load (c : AtomicCell β) (view k : Nat) : Option β :=
  if view ≤ k then c.history[k]? else none

def Counts (c : AtomicCell UInt64) (n : Nat) : Prop :=
  c.history = (List.range (n + 1)).map UInt64.ofNat

theorem counts_zero : Counts ⟨0, []⟩ 0 := rfl

section Counts
variable {c : AtomicCell UInt64} {n : Nat}

theorem Counts.history_getElem? (h : c.Counts n) (k : Nat) :
    c.history[k]? = if k ≤ n then some (UInt64.ofNat k) else none := by
  rw [show c.history = _ from h, List.getElem?_map]
  split_ifs with hk
  · rw [List.getElem?_range (by omega)]
    rfl
  · rw [List.getElem?_eq_none (by simp; omega)]
    rfl

theorem Counts.length_stores (h : c.Counts n) : c.stores.length = n := by
  have hlen := congrArg List.length h
  simpa [history] using hlen

theorem Counts.current_eq (h : c.Counts n) : c.current = UInt64.ofNat n := by
  have hlast : c.history.getLast? = some c.current := by
    simp only [history, current, List.getLast?_cons, List.getLastD_eq_getLast?]
  rw [show c.history = _ from h, List.range_succ, List.map_append] at hlast
  simpa using hlast.symm

theorem Counts.store_succ (h : c.Counts n) : (c.store (UInt64.ofNat n + 1)).Counts (n + 1) := by
  have hc : c.history = _ := h
  unfold Counts
  rw [List.range_succ, List.map_append, ← hc, ModularCounter.ofNat_succ]
  rfl

theorem Counts.load_eq_some (h : c.Counts n) {view k : Nat} {v : UInt64} :
    c.load view k = some v ↔ view ≤ k ∧ k ≤ n ∧ v = UInt64.ofNat k := by
  unfold load
  rw [h.history_getElem?]
  split_ifs <;> simp_all [eq_comm]

end Counts
end AtomicCell
end Basis
