import AetherStream.Queue.ZeroCopySafety

/-! Operations on `Reservation` handles whose `queue_` is null. Each of them but `construct`
guards against that state; a run leaves the queue alone at every such operation exactly when
`construct` is never among them. -/

namespace AetherStream
open Reservation
variable {cap : Capacity} {α : Type*}

def ReserveStep.handle : ReserveStep α → Option Nat
  | .construct i _ | .commit i | .cancel i | .destroy i | .moveConstruct i | .moveAssign i _ => some i
  | _ => none

namespace ZeroCopySpsc

/-- The operation is over; no object was made or ended, inside the buffer or outside, and the
counters and `active_reservation_` are what they were. -/
structure Undisturbed (s s' : ZeroCopySpsc cap α) : Prop where
  pc : s'.pc = .idle
  ring : s'.ring = s.ring
  activeReservation : s'.activeReservation = s.activeReservation
  misused : s'.misused = s.misused

def ShowsNothing (s : ZeroCopySpsc cap α) : Prop :=
  s.pc = .idle → ∀ i r, s.handles i = some r → r.queue = false → r.get = none ∧ r.constructed = false

def HarmlessAt (s : ZeroCopySpsc cap α) : ZeroCopyStep α → Prop
  | .producer a => s.pc = .idle → ∀ i r, a.handle = some i → s.handles i = some r → r.queue = false →
      Undisturbed s (s.producerStep a)
  | .consumer _ => True

def Harmless (s : ZeroCopySpsc cap α) : List (ZeroCopyStep α) → Prop
  | [] => s.ShowsNothing
  | a :: steps => s.ShowsNothing ∧ s.HarmlessAt a ∧ (s.step a).Harmless steps

theorem onHandle_of_eq_some {s : ZeroCopySpsc cap α} {i : Nat} {r : Reservation cap} (hr : s.handles i = some r)
    (f : Reservation cap → ZeroCopySpsc cap α) : s.onHandle i f = f r := by
  rw [onHandle, hr, Option.elim_some]

section Guards
variable {s : ZeroCopySpsc cap α} (hpc : s.pc = .idle)
include hpc

theorem undisturbed_setHandle (i : Nat) (o : Option (Reservation cap)) : Undisturbed s (s.setHandle i o) :=
  ⟨hpc, rfl, rfl, rfl⟩

theorem undisturbed_moveFrom (dst src : Nat) : Undisturbed s (s.moveFrom dst src) := by
  unfold moveFrom
  cases s.handles src with
  | none => exact ⟨hpc, rfl, rfl, rfl⟩
  | some r => exact ⟨hpc, rfl, rfl, rfl⟩

theorem undisturbed_cancel {i : Nat} {r : Reservation cap} (hqueue : r.queue = false) (after : AfterCancel) :
    Undisturbed s (s.cancel i r after) := by
  rw [cancel, hqueue, Bool.not_false, if_pos rfl]
  cases after with
  | keep => exact ⟨hpc, rfl, rfl, rfl⟩
  | destroy => exact undisturbed_setHandle hpc i none
  | moveFrom src => exact undisturbed_moveFrom hpc i src

theorem undisturbed_commit {i : Nat} {r : Reservation cap} (hqueue : r.queue = false) :
    Undisturbed s (s.commit i r) := by
  rw [commit, hqueue, Bool.not_false, Bool.true_or, if_pos rfl]
  exact ⟨hpc, rfl, rfl, rfl⟩

theorem undisturbed_producerStep {a : ReserveStep α} {i : Nat} {r : Reservation cap} (hhandle : a.handle = some i)
    (hr : s.handles i = some r) (hqueue : r.queue = false) (hne : ∀ v, a ≠ .construct i v) :
    Undisturbed s (s.producerStep a) := by
  cases a with
  | construct j v =>
    cases hhandle
    exact absurd rfl (hne v)
  | commit j =>
    cases hhandle
    simp only [producerStep, hpc, onHandle_of_eq_some hr]
    exact undisturbed_commit hpc hqueue
  | cancel j =>
    cases hhandle
    simp only [producerStep, hpc, onHandle_of_eq_some hr]
    exact undisturbed_cancel hpc hqueue .keep
  | destroy j =>
    cases hhandle
    simp only [producerStep, hpc, onHandle_of_eq_some hr]
    exact undisturbed_cancel hpc hqueue .destroy
  | moveConstruct j =>
    cases hhandle
    simp only [producerStep, hpc, onHandle_of_eq_some hr]
    exact ⟨hpc, rfl, rfl, rfl⟩
  | moveAssign j src =>
    cases hhandle
    simp only [producerStep, hpc, onHandle_of_eq_some hr]
    split_ifs
    · exact ⟨hpc, rfl, rfl, rfl⟩
    · exact undisturbed_cancel hpc hqueue (.moveFrom src)
  | _ => cases hhandle

end Guards

section Reachable
variable {fifo : Prop} {s : ZeroCopySpsc cap α} (hinv : Inv fifo s)
include hinv

theorem Inv.blank_of_queue {i : Nat} {r : Reservation cap} (hpc : s.pc = .idle) (hr : s.handles i = some r)
    (hqueue : r.queue = false) : r.Blank := by
  obtain ⟨holder, -, hheld⟩ := hinv.idle hpc
  by_contra hblank
  obtain rfl := hheld.sole.eq_some_of_not_blank hr hblank
  exact Bool.false_ne_true (hqueue.symm.trans (hheld.sole.get hr).1)

theorem Inv.showsNothing : s.ShowsNothing := by
  intro hpc i r hr hqueue
  have hblank := hinv.blank_of_queue hpc hr hqueue
  exact ⟨if_neg (by simp [hblank.2.2]), hblank.2.2⟩

theorem Inv.misused_construct {i : Nat} {r : Reservation cap} (hpc : s.pc = .idle) (hr : s.handles i = some r)
    (hqueue : r.queue = false) (v : α) : (s.producerStep (.construct i v)).misused = true := by
  have hblank := hinv.blank_of_queue hpc hr hqueue
  simp only [ZeroCopySpsc.producerStep, hpc, onHandle_of_eq_some hr, ZeroCopySpsc.construct, hblank.2.1]
  rfl

theorem Inv.harmlessAt_construct_iff (i : Nat) (v : α) :
    s.HarmlessAt (.producer (.construct i v)) ↔ s.allowed (.producer (.construct i v)) = true := by
  simp only [HarmlessAt, allowed, ReserveStep.handle, Option.some.injEq, Bool.or_eq_true]
  constructor
  · intro hharmless
    by_cases hpc : s.pc = .idle
    · right
      cases hr : s.handles i with
      | none => rfl
      | some r =>
        rw [Option.all_some]
        by_contra hqueue
        have hfalse : r.queue = false := (Bool.not_eq_true _).mp hqueue
        have hmisused := hinv.misused_construct hpc hr hfalse v
        rw [(hharmless hpc i r rfl hr hfalse).misused, hinv.not_misused] at hmisused
        exact Bool.false_ne_true hmisused
    · left
      cases hbusy : s.pc with
      | idle => exact absurd hbusy hpc
      | _ => rfl
  · rintro (hbusy | hholds) hpc j r rfl hr hqueue
    · rw [hpc] at hbusy
      cases hbusy
    · rw [hr, Option.all_some, hqueue] at hholds
      cases hholds

theorem Inv.harmlessAt_iff (a : ZeroCopyStep α) : s.HarmlessAt a ↔ s.allowed a = true := by
  cases a with
  | consumer a => exact iff_of_true trivial rfl
  | producer a =>
    cases a with
    | construct i v => exact hinv.harmlessAt_construct_iff i v
    | _ =>
      refine iff_of_true ?_ rfl
      intro hpc i r hhandle hr hqueue
      exact undisturbed_producerStep hpc hhandle hr hqueue nofun

end Reachable

theorem Inv.harmless_iff {s : ZeroCopySpsc cap α} (hinv : Inv False s) (steps : List (ZeroCopyStep α)) :
    s.Harmless steps ↔ s.obeys steps = true := by
  induction steps generalizing s with
  | nil => exact iff_of_true hinv.showsNothing rfl
  | cons a steps ih =>
    rw [Harmless, obeys, Bool.and_eq_true, hinv.harmlessAt_iff, and_iff_right hinv.showsNothing]
    -- an allowed step keeps the invariant, so the rest of the run is judged from such a state
    exact and_congr_right fun hallowed => ih (hinv.step hallowed nofun)

theorem harmless_iff_obeys (cap : Capacity) (steps : List (ZeroCopyStep α)) :
    (initial cap α).Harmless steps ↔ (initial cap α).obeys steps = true :=
  (inv_initial False cap α).harmless_iff steps

/-- `construct` on a default-constructed handle applies `std::construct_at` to a null pointer. -/
theorem construct_on_default_not_harmless :
    ¬ (initial .least Nat).Harmless [.producer .defaultConstruct, .producer (.construct 0 7)] ∧
      ((initial .least Nat).run [.producer .defaultConstruct, .producer (.construct 0 7)]).misused = true := by
  refine ⟨fun hharmless => ?_, rfl⟩
  have hundisturbed := hharmless.2.2.2.1 rfl 0 {} rfl rfl rfl
  exact Bool.false_ne_true hundisturbed.misused.symm

end ZeroCopySpsc
end AetherStream
