import Mathlib.Order.Nat

/-! Termination under a fair scheduler, by the rule of the helpful thread: in every state one
thread is singled out whose turn lowers the rank, and the turns of the others lower it or leave
it and the choice alone. -/

namespace Basis
variable {σ ι : Type*}

def stateAt (step : σ → ι → σ) (s : σ) (schedule : Nat → ι) : Nat → σ
  | 0 => s
  | n + 1 => step (stateAt step s schedule n) (schedule n)

def Fair (schedule : Nat → ι) : Prop := ∀ i n, ∃ m, n ≤ m ∧ schedule m = i

/-- The rank falls, or the turn was not the helpful thread's and changed neither. -/
def Falls (step : σ → ι → σ) (rank : σ → Nat) (helpful : σ → ι) (s : σ) (i : ι) : Prop :=
  rank (step s i) < rank s ∨ i ≠ helpful s ∧ rank (step s i) = rank s ∧ helpful (step s i) = helpful s

section Rule
variable {step : σ → ι → σ} {s : σ} {schedule : Nat → ι}

theorem stateAt_induction {I : σ → Prop} (hkeep : ∀ s i, I s → I (step s i)) (hs : I s) (schedule : Nat → ι)
    (n : Nat) :
    I (stateAt step s schedule n) := by
  induction n with
  | zero => exact hs
  | succ n ih => exact hkeep _ _ ih

variable {I goal : σ → Prop} {rank : σ → Nat} {helpful : σ → ι} (hkeep : ∀ s i, I s → I (step s i))
  (hfalls : ∀ s i, I s → ¬ goal s → Falls step rank helpful s i) (hs : I s)
  (hnever : ∀ n, ¬ goal (stateAt step s schedule n))
include hkeep hfalls hs hnever

theorem rank_lt_or_same (n d : Nat) :
    (∃ m, rank (stateAt step s schedule m) < rank (stateAt step s schedule n)) ∨
      rank (stateAt step s schedule (n + d)) = rank (stateAt step s schedule n) ∧
        helpful (stateAt step s schedule (n + d)) = helpful (stateAt step s schedule n) := by
  induction d with
  | zero => exact Or.inr ⟨rfl, rfl⟩
  | succ d ih =>
    refine ih.elim Or.inl fun hsame => ?_
    have hI := stateAt_induction hkeep hs schedule (n + d)
    rcases hfalls _ (schedule (n + d)) hI (hnever _) with hlt | ⟨-, hrank, hhelpful⟩
    · exact Or.inl ⟨n + d + 1, hlt.trans_eq hsame.1⟩
    · exact Or.inr ⟨hrank.trans hsame.1, hhelpful.trans hsame.2⟩

theorem exists_rank_lt (hfair : Fair schedule) (n : Nat) :
    ∃ m, rank (stateAt step s schedule m) < rank (stateAt step s schedule n) := by
  obtain ⟨m, hle, hturn⟩ := hfair (helpful (stateAt step s schedule n)) n
  obtain ⟨d, rfl⟩ := Nat.exists_eq_add_of_le hle
  refine (rank_lt_or_same hkeep hfalls hs hnever n d).elim id fun hsame => ?_
  have hI := stateAt_induction hkeep hs schedule (n + d)
  rcases hfalls _ (schedule (n + d)) hI (hnever _) with hlt | ⟨hne, -⟩
  · exact ⟨n + d + 1, hlt.trans_eq hsame.1⟩
  · exact absurd (hturn.trans hsame.2.symm) hne

end Rule

theorem Fair.eventually {step : σ → ι → σ} {s : σ} {schedule : Nat → ι} {I goal : σ → Prop} {rank : σ → Nat}
    {helpful : σ → ι} (hfair : Fair schedule) (hkeep : ∀ s i, I s → I (step s i))
    (hfalls : ∀ s i, I s → ¬ goal s → Falls step rank helpful s i) (hs : I s) :
    ∃ n, goal (stateAt step s schedule n) := by
  by_contra hnever
  push Not at hnever
  -- a rank below every rank there is
  have hnone : ∀ r n, rank (stateAt step s schedule n) ≠ r := by
    intro r
    induction r using Nat.strong_induction_on with
    | _ r ih =>
      rintro n rfl
      obtain ⟨m, hlt⟩ := exists_rank_lt hkeep hfalls hs hnever hfair n
      exact ih _ hlt m rfl
  exact hnone _ 0 rfl

end Basis
