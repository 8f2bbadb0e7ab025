import AetherStream.Basis.Simulation

/-! A bounded first-in first-out queue as its callers see it, and the same queue with two ends
that learn of each other with a delay: either end may act on an old count of what the other
did, but never on one older than it has acted on before. -/

namespace Basis

inductive FifoEvent (α : Type*) where
  | pushed (v : α)
  | full
  | popped (v : α)
  | empty
  deriving DecidableEq, Repr

def FifoEvent.isPushed {α : Type*} : FifoEvent α → Bool
  | pushed _ => true
  | _ => false

def FifoEvent.isPopped {α : Type*} : FifoEvent α → Bool
  | popped _ => true
  | _ => false

def FifoEvent.isRefusal {α : Type*} : FifoEvent α → Bool
  | full | empty => true
  | _ => false

def FifoEvent.reliable {α : Type*} (fresh : Bool) (e : FifoEvent α) : Bool := fresh || !e.isRefusal

theorem FifoEvent.reliable_of_not_isRefusal {α : Type*} {e : FifoEvent α} (h : e.isRefusal = false) (fresh : Bool) :
    e.reliable fresh = true := by
  rw [reliable, h]
  exact Bool.or_true fresh

theorem FifoEvent.reliable_of_isRefusal {α : Type*} {e : FifoEvent α} (h : e.isRefusal = true) (fresh : Bool) :
    e.reliable fresh = fresh := by
  rw [reliable, h]
  exact Bool.or_false fresh

inductive FifoNext {α : Type*} (bound : Nat) : List α → FifoEvent α → List α → Prop
  | push {q : List α} (v : α) (hroom : q.length < bound) : FifoNext bound q (.pushed v) (q ++ [v])
  | full {q : List α} (hfull : q.length = bound) : FifoNext bound q .full q
  | pop {q : List α} (v : α) : FifoNext bound (v :: q) (.popped v) q
  | empty : FifoNext bound [] .empty []

/-- All values that were pushed, how many of them were popped, and the newest count of the
other end that each end has acted on. -/
structure DelayedFifo (α : Type*) where
  values : List α := []
  taken : Nat := 0
  takenSeen : Nat := 0
  pushedSeen : Nat := 0

namespace DelayedFifo
variable {α : Type*}

/-- `k` is what the acting end sees of the other one; with `fresh` no end is refused on an old
count. -/
inductive Next (fresh : Prop) (bound : Nat) : DelayedFifo α → FifoEvent α → DelayedFifo α → Prop
  | push {q : DelayedFifo α} {k : Nat} (v : α) (hseen : q.takenSeen ≤ k) (hk : k ≤ q.taken)
      (hroom : q.values.length < k + bound) :
      Next fresh bound q (.pushed v) { q with values := q.values ++ [v], takenSeen := k }
  | full {q : DelayedFifo α} {k : Nat} (hseen : q.takenSeen ≤ k) (hk : k ≤ q.taken) (hfresh : fresh → k = q.taken)
      (hfull : q.values.length = k + bound) : Next fresh bound q .full { q with takenSeen := k }
  | pop {q : DelayedFifo α} {k : Nat} {v : α} (hseen : q.pushedSeen ≤ k) (hk : k ≤ q.values.length)
      (hlt : q.taken < k) (hv : q.values[q.taken]? = some v) :
      Next fresh bound q (.popped v) { q with taken := q.taken + 1, pushedSeen := k }
  | empty {q : DelayedFifo α} {k : Nat} (hseen : q.pushedSeen ≤ k) (hk : k ≤ q.values.length)
      (hfresh : fresh → k = q.values.length) (hempty : q.taken = k) :
      Next fresh bound q .empty { q with pushedSeen := k }

def contents (q : DelayedFifo α) : List α := q.values.drop q.taken

theorem Next.fifoNext {fresh : Bool} {bound : Nat} {q q' : DelayedFifo α} {e : FifoEvent α}
    (hle : q.taken ≤ q.values.length) (h : Next (fresh = true) bound q e q') :
    q'.taken ≤ q'.values.length ∧
      if e.reliable fresh then FifoNext bound q.contents e q'.contents else q'.contents = q.contents := by
  cases h with
  | push v hseen hk hroom =>
    refine ⟨hle.trans (by simp), ?_⟩
    rw [if_pos (FifoEvent.reliable_of_not_isRefusal rfl fresh), contents, contents, List.drop_append_of_le_length hle]
    refine .push v ?_
    rw [List.length_drop]
    omega
  | full hseen hk hold hfull =>
    refine ⟨hle, ?_⟩
    rw [FifoEvent.reliable_of_isRefusal rfl]
    split_ifs with hfresh
    · obtain rfl := hold hfresh
      refine .full ?_
      rw [contents, List.length_drop]
      omega
    · rfl
  | pop hseen hk hlt hv =>
    refine ⟨hlt.trans_le hk, ?_⟩
    obtain ⟨hin, rfl⟩ := List.getElem?_eq_some_iff.mp hv
    rw [if_pos (FifoEvent.reliable_of_not_isRefusal rfl fresh), contents, contents, List.drop_eq_getElem_cons hin]
    exact .pop _
  | empty hseen hk hold hempty =>
    refine ⟨hle, ?_⟩
    rw [FifoEvent.reliable_of_isRefusal rfl]
    split_ifs with hfresh
    · obtain rfl := hold hfresh
      simp only [contents, hempty, List.drop_length]
      exact .empty
    · rfl

theorem simulates_reliable {σ β : Type*} {bound : Nat} {step : σ → β → σ} {emit : σ → β → List (FifoEvent α)}
    {fresh : σ → β → Bool} {P : σ → β → Prop} {R : σ → DelayedFifo α → Prop}
    (hstep : ∀ s q b, R s q → P s b →
      ∃ q', Takes (Next (fresh s b = true) bound) q (emit s b) q' ∧ R (step s b) q')
    {s : σ} {bs : List β} (hR : R s {}) (h : Along step P s bs) :
    ∃ q', Takes (FifoNext bound) [] (emitted step (fun s b => (emit s b).filter (FifoEvent.reliable (fresh s b))) s bs)
        q'.contents ∧ R (bs.foldl step s) q' :=
  h.simulates_filter (fun fresh : Bool => Next (fresh = true) bound) contents FifoEvent.reliable
    (I := fun q => q.taken ≤ q.values.length) (fun _ _ _ _ hle hnext => hnext.fifoNext hle) hstep hR le_rfl

variable {fresh : Prop} {bound : Nat} {q q' : DelayedFifo α} {e : FifoEvent α} {es : List (FifoEvent α)}

theorem Next.length_values (h : Next fresh bound q e q') :
    q'.values.length = q.values.length + if e.isPushed then 1 else 0 := by
  cases h with
  | push => exact List.length_append
  | _ => rfl

theorem Next.taken (h : Next fresh bound q e q') : q'.taken = q.taken + if e.isPopped then 1 else 0 := by
  cases h <;> rfl

end DelayedFifo
end Basis
