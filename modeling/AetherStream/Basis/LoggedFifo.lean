import AetherStream.Basis.BoundedFifo

/-! A bounded queue with a log of all that was ever pushed. The log has room for so many values
too, and a push whose value cannot be made to last is refused. -/

namespace Basis

inductive LoggedEvent (α : Type*) where
  | queue (e : FifoEvent α)
  | logFull
  | notLasting
  deriving DecidableEq, Repr

def LoggedEvent.reliable {α : Type*} (fresh : Bool) : LoggedEvent α → Bool
  | queue e => e.reliable fresh
  | _ => true

def FifoEvent.pushes {α : Type*} : FifoEvent α → List α
  | pushed v => [v]
  | _ => []

structure LoggedFifo (α : Type*) where
  log : List α := []
  queue : List α := []

namespace LoggedFifo
variable {α : Type*}

inductive Next (bound logBound : Nat) : LoggedFifo α → LoggedEvent α → LoggedFifo α → Prop
  | queue {s : LoggedFifo α} {e : FifoEvent α} {queue : List α} (h : FifoNext bound s.queue e queue)
      (hlog : e.isPushed = true → s.log.length < logBound) :
      Next bound logBound s (.queue e) ⟨s.log ++ e.pushes, queue⟩
  | logFull {s : LoggedFifo α} (hroom : s.queue.length < bound) (hlog : s.log.length = logBound) :
      Next bound logBound s .logFull s
  | notLasting {s : LoggedFifo α} (hroom : s.queue.length < bound) (hlog : s.log.length < logBound) :
      Next bound logBound s .notLasting s

end LoggedFifo

namespace DelayedFifo
variable {α : Type*}

inductive LoggedNext (fresh : Prop) (bound logBound : Nat) : DelayedFifo α → LoggedEvent α → DelayedFifo α → Prop
  | queue {q q' : DelayedFifo α} {e : FifoEvent α} (h : Next fresh bound q e q')
      (hlog : e.isPushed = true → q.values.length < logBound) : LoggedNext fresh bound logBound q (.queue e) q'
  | logFull {q : DelayedFifo α} {k : Nat} (hseen : q.takenSeen ≤ k) (hk : k ≤ q.taken)
      (hroom : q.values.length < k + bound) (hlog : q.values.length = logBound) :
      LoggedNext fresh bound logBound q .logFull { q with takenSeen := k }
  | notLasting {q : DelayedFifo α} {k : Nat} (hseen : q.takenSeen ≤ k) (hk : k ≤ q.taken)
      (hroom : q.values.length < k + bound) (hlog : q.values.length < logBound) :
      LoggedNext fresh bound logBound q .notLasting { q with takenSeen := k }

variable {fresh : Prop} {bound logBound : Nat} {q q' : DelayedFifo α}

theorem Next.values {e : FifoEvent α} (h : Next fresh bound q e q') : q'.values = q.values ++ e.pushes := by
  cases h with
  | push => rfl
  | _ => exact (List.append_nil _).symm

theorem Next.of_pushed {fresh' : Prop} {v : α} (h : Next fresh bound q (.pushed v) q') :
    Next fresh' bound q (.pushed v) q' := by
  cases h with
  | push v hseen hk hroom => exact .push v hseen hk hroom

theorem takes_queue {es : List (FifoEvent α)} (h : Takes (Next fresh bound) q es q')
    (hpop : ∀ e ∈ es, e.isPushed = false) : Takes (LoggedNext fresh bound logBound) q (es.map .queue) q' := by
  induction es generalizing q with
  | nil => exact h
  | cons e es ih =>
    obtain ⟨u, hnext, hrest⟩ := h
    obtain ⟨he, hes⟩ := List.forall_mem_cons.mp hpop
    exact ⟨u, .queue hnext fun hpushed => absurd (he.symm.trans hpushed) (by decide), ih hrest hes⟩

def logged (q : DelayedFifo α) : LoggedFifo α := ⟨q.values, q.contents⟩

theorem length_contents_lt {k : Nat} (hk : k ≤ q.taken) (hle : q.taken ≤ q.values.length)
    (hroom : q.values.length < k + bound) : q.contents.length < bound := by
  rw [contents, List.length_drop]
  omega

theorem LoggedNext.next {fresh : Bool} {e : LoggedEvent α} (hle : q.taken ≤ q.values.length)
    (h : LoggedNext (fresh = true) bound logBound q e q') :
    q'.taken ≤ q'.values.length ∧
      if e.reliable fresh then LoggedFifo.Next bound logBound q.logged e q'.logged else q'.logged = q.logged := by
  cases h with
  | @queue _ e h hlog =>
    obtain ⟨hle', hnext⟩ := h.fifoNext hle
    refine ⟨hle', ?_⟩
    show if e.reliable fresh then _ else _
    split_ifs at hnext ⊢ with hreliable
    · have hqueue := LoggedFifo.Next.queue (s := q.logged) hnext hlog
      rwa [show q.logged.log = q.values from rfl, ← h.values] at hqueue
    · have hvalues : q'.values = q.values := by
        rw [h.values]
        cases e <;> simp_all [FifoEvent.reliable, FifoEvent.isRefusal, FifoEvent.pushes]
      rw [logged, logged, hnext, hvalues]
  | logFull hseen hk hroom hlog => exact ⟨hle, .logFull (length_contents_lt hk hle hroom) hlog⟩
  | notLasting hseen hk hroom hlog => exact ⟨hle, .notLasting (length_contents_lt hk hle hroom) hlog⟩

theorem simulates_reliable_logged {σ β : Type*} {step : σ → β → σ} {emit : σ → β → List (LoggedEvent α)}
    {fresh : σ → β → Bool} {P : σ → β → Prop} {R : σ → DelayedFifo α → Prop}
    (hstep : ∀ s q b, R s q → P s b →
      ∃ q', Takes (LoggedNext (fresh s b = true) bound logBound) q (emit s b) q' ∧ R (step s b) q')
    {s : σ} {bs : List β} (hR : R s {}) (h : Along step P s bs) :
    ∃ q', Takes (LoggedFifo.Next bound logBound) {}
        (emitted step (fun s b => (emit s b).filter (LoggedEvent.reliable (fresh s b))) s bs) q'.logged ∧
      R (bs.foldl step s) q' :=
  h.simulates_filter (fun fresh : Bool => LoggedNext (fresh = true) bound logBound) logged LoggedEvent.reliable
    (I := fun q => q.taken ≤ q.values.length) (fun _ _ _ _ hle hnext => hnext.next hle) hstep hR le_rfl

end DelayedFifo
end Basis
