import Mathlib.Algebra.Group.Nat.Defs
import Mathlib.Data.List.Chain
import Mathlib.Tactic.SplitIfs

/-! The two back-off helpers that share the name `aether::utils::SpinWait`: the one of
`spin_wait.hpp` counts every pause in a wrapping 32-bit word, the one of `thread_utils.hpp`
stops counting once its pauses are spent. Both are compared with a back-off whose counter is a
natural number. -/

namespace AetherStream.Utils

inductive Action where
  | relax
  | yield
deriving DecidableEq, Repr

inductive Call where
  | wait
  | reset
deriving DecidableEq, Repr

def runCalls {σ : Type} (wait : σ → Action × σ) (reset : σ → σ) : σ → List Call → List (Option Action)
  | _, [] => []
  | s, .wait :: calls => some (wait s).1 :: runCalls wait reset (wait s).2 calls
  | s, .reset :: calls => none :: runCalls wait reset (reset s) calls

theorem runCalls_eq {σ τ : Type} {wait : σ → Action × σ} {reset : σ → σ} {wait' : τ → Action × τ} {reset' : τ → τ}
    (rel : σ → τ → Prop) (hwait : ∀ s t, rel s t → (wait s).1 = (wait' t).1 ∧ rel (wait s).2 (wait' t).2)
    (hreset : ∀ s t, rel s t → rel (reset s) (reset' t)) {s : σ} {t : τ} (h : rel s t) (calls : List Call) :
    runCalls wait reset s calls = runCalls wait' reset' t calls := by
  induction calls generalizing s t with
  | nil => rfl
  | cons call calls ih =>
    cases call with
    | wait =>
      obtain ⟨hact, hnext⟩ := hwait s t h
      rw [runCalls, runCalls, hact, ih hnext]
    | reset => rw [runCalls, runCalls, ih (hreset s t h)]

structure SpinWait where
  pauseIterations : UInt32 := 64
  yieldAfterSpin : Bool := true
  count : UInt32 := 0

namespace SpinWait

def pause (w : SpinWait) : Action × SpinWait :=
  (if w.count < w.pauseIterations || !w.yieldAfterSpin then .relax else .yield,
    { w with count := w.count + 1 })

def reset (w : SpinWait) : SpinWait := { w with count := 0 }

def run : SpinWait → List Call → List (Option Action) := runCalls pause reset

end SpinWait

namespace ThreadUtils

structure SpinWait where
  counter : UInt32 := 0
  pauseIterations : UInt32 := 64
  yieldAfterSpin : Bool := true

namespace SpinWait

def wait (w : SpinWait) : Action × SpinWait :=
  if w.counter < w.pauseIterations then (.relax, { w with counter := w.counter + 1 })
  else if w.yieldAfterSpin then (.yield, w)
  else (.relax, w)

def reset (w : SpinWait) : SpinWait := { w with counter := 0 }

def run : SpinWait → List Call → List (Option Action) := runCalls wait reset

end SpinWait
end ThreadUtils

section BackOff
variable (pauseIterations : UInt32) (yieldAfterSpin : Bool)

def backOff (waits : Nat) : Action :=
  if waits < pauseIterations.toNat ∨ yieldAfterSpin = false then .relax else .yield

def backOffRun : Nat → List Call → List (Option Action) :=
  runCalls (fun waits => (backOff pauseIterations yieldAfterSpin waits, waits + 1)) (fun _ => 0)

def KeepsYielding (trace : List (Option Action)) : Prop :=
  trace.IsChain fun a b => a = some .yield → b ≠ some .relax

variable {pauseIterations yieldAfterSpin}

theorem backOff_of_lt {waits : Nat} (h : waits < pauseIterations.toNat) :
    backOff pauseIterations yieldAfterSpin waits = .relax := if_pos (.inl h)

theorem backOff_of_le {waits : Nat} (h : pauseIterations.toNat ≤ waits) :
    backOff pauseIterations yieldAfterSpin waits = if yieldAfterSpin then .yield else .relax := by
  unfold backOff
  cases yieldAfterSpin <;> simp [h]

theorem backOff_succ_of_yield {waits : Nat} (h : backOff pauseIterations yieldAfterSpin waits = .yield) :
    backOff pauseIterations yieldAfterSpin (waits + 1) = .yield := by
  unfold backOff at h ⊢
  split_ifs at h with hrelax
  rw [if_neg]
  rintro (hlt | hno)
  · exact hrelax (.inl (by omega))
  · exact hrelax (.inr hno)

theorem backOffRun_keepsYielding (waits : Nat) (calls : List Call) :
    KeepsYielding (backOffRun pauseIterations yieldAfterSpin waits calls) := by
  induction calls generalizing waits with
  | nil => exact .nil
  | cons call calls ih =>
    cases call with
    | reset =>
      refine .cons (ih 0) fun b _ h => ?_
      cases h
    | wait =>
      refine .cons (ih (waits + 1)) fun b hb hyield => ?_
      have hnext := backOff_succ_of_yield (Option.some.inj hyield)
      -- what follows a wait is the end, a reset, or the next wait, which yields again
      cases calls with
      | nil => cases hb
      | cons next calls =>
        cases next with
        | reset => cases hb; nofun
        | wait =>
          cases hb
          intro hrelax
          cases hnext.symm.trans (Option.some.inj hrelax)

end BackOff

structure ThreadUtils.SpinWait.Saturates (pauseIterations : UInt32) (yieldAfterSpin : Bool)
    (w : ThreadUtils.SpinWait) (waits : Nat) : Prop where
  pauseIterations_eq : w.pauseIterations = pauseIterations
  yieldAfterSpin_eq : w.yieldAfterSpin = yieldAfterSpin
  counter : w.counter.toNat = min waits pauseIterations.toNat

section Saturates
variable {pauseIterations : UInt32} {yieldAfterSpin : Bool} {w : ThreadUtils.SpinWait} {waits : Nat}
  (h : w.Saturates pauseIterations yieldAfterSpin waits)
include h

theorem ThreadUtils.SpinWait.Saturates.wait : w.wait.1 = backOff pauseIterations yieldAfterSpin waits ∧
    w.wait.2.Saturates pauseIterations yieldAfterSpin (waits + 1) := by
  obtain ⟨rfl, rfl, hcounter⟩ := h
  by_cases hspin : w.counter < w.pauseIterations
  · have hlt : w.counter.toNat < w.pauseIterations.toNat := UInt32.lt_iff_toNat_lt.mp hspin
    have hmax := w.pauseIterations.toNat_lt
    have hstep : w.wait = (.relax, { w with counter := w.counter + 1 }) := if_pos hspin
    rw [hstep, backOff_of_lt (by omega)]
    refine ⟨rfl, rfl, rfl, ?_⟩
    rw [UInt32.toNat_add, show (1 : UInt32).toNat = 1 from rfl, Nat.mod_eq_of_lt (by omega)]
    omega
  · -- the pauses are spent, and the counter stays
    have hge : w.pauseIterations.toNat ≤ w.counter.toNat := Nat.not_lt.mp (mt UInt32.lt_iff_toNat_lt.mpr hspin)
    have hstep : w.wait = (if w.yieldAfterSpin then .yield else .relax, w) := by
      rw [ThreadUtils.SpinWait.wait, if_neg hspin]
      split_ifs <;> rfl
    have hnext : w.counter.toNat = min (waits + 1) w.pauseIterations.toNat := by omega
    rw [hstep, backOff_of_le (by omega)]
    exact ⟨rfl, rfl, rfl, hnext⟩

theorem ThreadUtils.SpinWait.Saturates.reset : w.reset.Saturates pauseIterations yieldAfterSpin 0 :=
  ⟨h.pauseIterations_eq, h.yieldAfterSpin_eq, (Nat.zero_min _).symm⟩

end Saturates

theorem threadUtils_run_eq_backOffRun (pauseIterations : UInt32) (yieldAfterSpin : Bool) (calls : List Call) :
    ThreadUtils.SpinWait.run { pauseIterations, yieldAfterSpin } calls =
      backOffRun pauseIterations yieldAfterSpin 0 calls := by
  have hstart : ThreadUtils.SpinWait.Saturates pauseIterations yieldAfterSpin { pauseIterations, yieldAfterSpin } 0 :=
    ⟨rfl, rfl, (Nat.zero_min _).symm⟩
  exact runCalls_eq (ThreadUtils.SpinWait.Saturates pauseIterations yieldAfterSpin) (fun _ _ h => h.wait)
    (fun _ _ h => h.reset) hstart calls

def longestStretch (waits : Nat) : List Call → Nat
  | [] => waits
  | .wait :: calls => longestStretch (waits + 1) calls
  | .reset :: calls => max waits (longestStretch 0 calls)

theorem le_longestStretch (waits : Nat) (calls : List Call) : waits ≤ longestStretch waits calls := by
  induction calls generalizing waits with
  | nil => exact Nat.le_refl waits
  | cons call calls ih =>
    cases call with
    | wait => exact Nat.le_trans (Nat.le_succ waits) (ih (waits + 1))
    | reset => exact Nat.le_max_left _ _

theorem longestStretch_replicate (waits n : Nat) :
    longestStretch waits (List.replicate n .wait) = waits + n := by
  induction n generalizing waits with
  | zero => rfl
  | succ n ih =>
    rw [List.replicate_succ, longestStretch, ih]
    omega

theorem pause_action {w : SpinWait} {waits : Nat} (hcount : w.count = UInt32.ofNat waits) :
    w.pause.1 = backOff w.pauseIterations w.yieldAfterSpin (waits % 2 ^ 32) := by
  have hlt : w.count < w.pauseIterations ↔ waits % 2 ^ 32 < w.pauseIterations.toNat := by
    rw [UInt32.lt_iff_toNat_lt, hcount, UInt32.toNat_ofNat']
  unfold SpinWait.pause backOff
  cases w.yieldAfterSpin <;> simp [hlt]

theorem count_pause {w : SpinWait} {waits : Nat} (hcount : w.count = UInt32.ofNat waits) :
    w.pause.2.count = UInt32.ofNat (waits + 1) := by
  show w.count + 1 = _
  rw [hcount]
  apply UInt32.toNat_inj.mp
  simp [UInt32.toNat_add]

theorem spinWait_run_eq_of_constant {w : SpinWait} (waits : Nat) (calls : List Call)
    (hconst : w.yieldAfterSpin = false ∨ w.pauseIterations = 0) :
    w.run calls = backOffRun w.pauseIterations w.yieldAfterSpin waits calls := by
  refine runCalls_eq (fun (w' : SpinWait) _ => w'.pauseIterations = w.pauseIterations ∧
    w'.yieldAfterSpin = w.yieldAfterSpin) ?_ ?_ ⟨rfl, rfl⟩ calls
  · rintro w' waits' ⟨hpause, hyield⟩
    refine ⟨?_, hpause, hyield⟩
    rw [SpinWait.pause, backOff, hpause, hyield]
    rcases hconst with hno | hzero
    · simp [hno]
    · cases w.yieldAfterSpin <;> simp [hzero]
  · intro w' waits' hsame
    exact hsame

theorem spinWait_run_eq_iff_longestStretch {w : SpinWait} {waits : Nat} (calls : List Call)
    (hyield : w.yieldAfterSpin = true) (hpause : w.pauseIterations ≠ 0)
    (hcount : w.count = UInt32.ofNat waits) (hfit : waits ≤ 2 ^ 32) :
    w.run calls = backOffRun w.pauseIterations w.yieldAfterSpin waits calls ↔
      longestStretch waits calls ≤ 2 ^ 32 := by
  induction calls generalizing w waits with
  | nil => exact iff_of_true rfl hfit
  | cons call calls ih =>
    cases call with
    | reset =>
      show none :: w.reset.run calls = none :: backOffRun _ _ 0 calls ↔
        max waits (longestStretch 0 calls) ≤ 2 ^ 32
      have hzero : w.reset.count = UInt32.ofNat 0 := rfl
      rw [List.cons_inj_right, Nat.max_le, and_iff_right hfit]
      exact ih hyield hpause hzero (Nat.zero_le _)
    | wait =>
      show some w.pause.1 :: w.pause.2.run calls =
        some (backOff w.pauseIterations w.yieldAfterSpin waits) ::
          backOffRun w.pauseIterations w.yieldAfterSpin (waits + 1) calls ↔
        longestStretch (waits + 1) calls ≤ 2 ^ 32
      have hact := pause_action hcount
      rcases Nat.lt_or_eq_of_le hfit with hlt | hwrap
      · rw [hact, Nat.mod_eq_of_lt hlt, List.cons_inj_right]
        exact ih hyield hpause (count_pause hcount) hlt
      · -- the wrapped counter starts pausing again, the back-off goes on yielding
        have hpos : 0 < w.pauseIterations.toNat :=
          Nat.pos_of_ne_zero fun h => hpause (UInt32.toNat_inj.mp h)
        have hrelax : w.pause.1 = .relax := by
          rw [hact, hwrap, Nat.mod_self, backOff_of_lt hpos]
        have hgoes : backOff w.pauseIterations w.yieldAfterSpin waits = .yield := by
          rw [backOff_of_le (hwrap ▸ w.pauseIterations.toNat_lt.le), if_pos hyield]
        have hover := le_longestStretch (waits + 1) calls
        rw [hrelax, hgoes]
        refine iff_of_false (fun h => ?_) (by omega)
        cases (List.cons.inj h).1

theorem spinWait_run_eq_iff (pauseIterations : UInt32) (yieldAfterSpin : Bool) (calls : List Call) :
    SpinWait.run { pauseIterations, yieldAfterSpin } calls =
        backOffRun pauseIterations yieldAfterSpin 0 calls ↔
      yieldAfterSpin = false ∨ pauseIterations = 0 ∨ longestStretch 0 calls ≤ 2 ^ 32 := by
  rw [← or_assoc]
  by_cases hconst : yieldAfterSpin = false ∨ pauseIterations = 0
  · exact iff_of_true (spinWait_run_eq_of_constant 0 calls hconst) (.inl hconst)
  · rw [or_iff_right hconst]
    obtain ⟨hyield, hpause⟩ := not_or.mp hconst
    exact spinWait_run_eq_iff_longestStretch calls ((Bool.not_eq_false _).mp hyield) hpause rfl
      (Nat.zero_le _)

/-- The two helpers, built with the same arguments, take the same action at every wait, and
neither relaxes again after a yield unless it is reset. -/
structure SpinWaitsAgree (pauseIterations : UInt32) (yieldAfterSpin : Bool) (calls : List Call) : Prop where
  same_actions : SpinWait.run { pauseIterations, yieldAfterSpin } calls =
    ThreadUtils.SpinWait.run { pauseIterations, yieldAfterSpin } calls
  pause_keepsYielding : KeepsYielding (SpinWait.run { pauseIterations, yieldAfterSpin } calls)
  wait_keepsYielding : KeepsYielding (ThreadUtils.SpinWait.run { pauseIterations, yieldAfterSpin } calls)

theorem spinWaits_agree_iff (pauseIterations : UInt32) (yieldAfterSpin : Bool) (calls : List Call) :
    SpinWaitsAgree pauseIterations yieldAfterSpin calls ↔
      yieldAfterSpin = false ∨ pauseIterations = 0 ∨ longestStretch 0 calls ≤ 2 ^ 32 := by
  have hthread := threadUtils_run_eq_backOffRun pauseIterations yieldAfterSpin calls
  have hkeeps : KeepsYielding (backOffRun pauseIterations yieldAfterSpin 0 calls) :=
    backOffRun_keepsYielding 0 calls
  rw [← spinWait_run_eq_iff]
  constructor
  · intro hagree
    exact hagree.same_actions.trans hthread
  · intro hspin
    exact ⟨hspin.trans hthread.symm, hspin.symm ▸ hkeeps, hthread.symm ▸ hkeeps⟩

/-- With the default arguments the helpers part at the wait number `2 ^ 32 + 1`. -/
theorem spinWaits_differ_after_wrap :
    ¬ SpinWaitsAgree 64 true (List.replicate (2 ^ 32 + 1) .wait) := by
  intro hagree
  have hspin := hagree.same_actions.trans (threadUtils_run_eq_backOffRun 64 true _)
  rcases (spinWait_run_eq_iff 64 true _).mp hspin with hno | hzero | hshort
  · cases hno
  · exact absurd hzero (by decide)
  · rw [longestStretch_replicate] at hshort
    omega

end AetherStream.Utils
