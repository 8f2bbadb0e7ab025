import Mathlib.Data.List.Basic
import Mathlib.Logic.Function.Iterate

/-! Folds that notice every change of a single letter: the step loses nothing of the state and
nothing of the letter. -/

namespace Basis

structure Detecting {σ β : Type*} (f : σ → β → σ) : Prop where
  state : ∀ b, Function.Injective fun s => f s b
  letter : ∀ s, Function.Injective (f s)

namespace Detecting
variable {σ β : Type*} {f : σ → β → σ} (hf : Detecting f)
include hf

theorem foldl_injective (l : List β) : Function.Injective fun s => l.foldl f s := by
  induction l with
  | nil => exact fun _ _ h => h
  | cons b l ih => exact fun s s' h => hf.state b (ih h)

theorem eq_of_foldl_set {l : List β} {j : Nat} {b c : β} (hj : l[j]? = some c) {s : σ}
    (h : (l.set j b).foldl f s = l.foldl f s) : b = c := by
  induction l generalizing s j with
  | nil => simp at hj
  | cons a l ih =>
    cases j with
    | zero =>
      obtain rfl : a = c := by simpa using hj
      exact hf.letter s (hf.foldl_injective l h)
    | succ j => exact ih (by simpa using hj) h

end Detecting
end Basis
