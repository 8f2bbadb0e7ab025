import Mathlib.Order.BooleanAlgebra.Set
import Mathlib.Tactic.Tauto

/-! Resources that are each held by exactly one of many owners, who take them up, give them
back and pass them on. An owner holds at most one. -/

namespace Basis

structure Owns {ι ρ : Type*} (own : ι → Option ρ) (held : Set ρ) : Prop where
  mem_iff : ∀ r, r ∈ held ↔ ∃ i, own i = some r
  unique : ∀ {i j r}, own i = some r → own j = some r → i = j

structure Swaps {ρ : Type*} (held held' : Set ρ) (o o' : Option ρ) : Prop where
  mem_iff : ∀ r, r ∈ held' ↔ r ∈ held ∧ o ≠ some r ∨ o' = some r
  fresh : ∀ r, o' = some r → r ∈ held → o = some r

namespace Swaps
variable {ρ : Type*} {held held' held'' : Set ρ} {o o' o'' : Option ρ} {r : ρ}

theorem mem (h : Swaps held held' o o') (hr : o' = some r) : r ∈ held' := (h.mem_iff r).mpr (Or.inr hr)

theorem keep (h : ∀ r, o = some r → r ∈ held) : Swaps held held o o := by
  refine ⟨fun r => ⟨fun hr => ?_, ?_⟩, fun _ hr _ => hr⟩
  · by_cases ho : o = some r
    · exact Or.inr ho
    · exact Or.inl ⟨hr, ho⟩
  · rintro (⟨hr, -⟩ | ho)
    · exact hr
    · exact h r ho

theorem acquire (h : r ∉ held) : Swaps held (insert r held) none (some r) := by
  refine ⟨fun s => ?_, fun s hs hmem => ?_⟩
  · rw [Set.mem_insert_iff, Option.some.injEq, or_comm]
    simp [eq_comm]
  · obtain rfl := Option.some.inj hs
    exact absurd hmem h

theorem release (r : ρ) : Swaps held (held \ {r}) (some r) none := by
  refine ⟨fun s => ?_, fun s hs => absurd hs (Option.some_ne_none s).symm⟩
  simp [eq_comm]

theorem trans (h : Swaps held held' o o') (h' : Swaps held' held'' o' o'') : Swaps held held'' o o'' := by
  refine ⟨fun r => ?_, fun r hr hmem => ?_⟩
  · have hfirst := h.mem_iff r
    have hsecond := h'.mem_iff r
    have hfresh := h.fresh r
    tauto
  · by_cases hmid : r ∈ held'
    · exact h.fresh r (h'.fresh r hr hmid) hmem
    · -- it left what is held in the first exchange
      by_contra ho
      exact hmid ((h.mem_iff r).mpr (Or.inl ⟨hmem, ho⟩))

end Swaps

namespace Owns
variable {ι ρ : Type*} {own : ι → Option ρ} {held held' : Set ρ}

theorem mem (h : Owns own held) {i : ι} {r : ρ} (hi : own i = some r) : r ∈ held := (h.mem_iff r).mpr ⟨i, hi⟩

theorem existsUnique (h : Owns own held) {r : ρ} (hr : r ∈ held) : ∃! i, own i = some r := by
  obtain ⟨i, hi⟩ := (h.mem_iff r).mp hr
  exact ⟨i, hi, fun j hj => h.unique hj hi⟩

theorem eq_empty (h : Owns own held) (hnone : ∀ i, own i = none) : held = ∅ := by
  apply Set.eq_empty_of_forall_notMem
  intro r hr
  obtain ⟨i, hi⟩ := (h.mem_iff r).mp hr
  rw [hnone i] at hi
  contradiction

variable [DecidableEq ι]

theorem replace (h : Owns own held) {i : ι} {o : Option ρ} (hs : Swaps held held' (own i) o) :
    Owns (Function.update own i o) held' := by
  have hother {j : ι} {r : ρ} (hj : own j = some r) (hne : j ≠ i) : own i ≠ some r := fun hi => hne (h.unique hj hi)
  refine ⟨fun r => ?_, fun {j k r} hj hk => ?_⟩
  · rw [hs.mem_iff]
    constructor
    · rintro (⟨hr, hi⟩ | ho)
      · obtain ⟨j, hj⟩ := (h.mem_iff r).mp hr
        have hne : j ≠ i := by
          rintro rfl
          exact hi hj
        exact ⟨j, by rw [Function.update_of_ne hne, hj]⟩
      · exact ⟨i, by rw [Function.update_self, ho]⟩
    · rintro ⟨j, hj⟩
      by_cases hji : j = i
      · subst hji
        rw [Function.update_self] at hj
        exact Or.inr hj
      · rw [Function.update_of_ne hji] at hj
        exact Or.inl ⟨h.mem hj, hother hj hji⟩
  · -- what `i` takes up is not held elsewhere
    by_cases hji : j = i <;> by_cases hki : k = i
    · rw [hji, hki]
    · subst hji
      rw [Function.update_self] at hj
      rw [Function.update_of_ne hki] at hk
      exact absurd (hs.fresh r hj (h.mem hk)) (hother hk hki)
    · subst hki
      rw [Function.update_self] at hk
      rw [Function.update_of_ne hji] at hj
      exact absurd (hs.fresh r hk (h.mem hj)) (hother hj hji)
    · rw [Function.update_of_ne hji] at hj
      rw [Function.update_of_ne hki] at hk
      exact h.unique hj hk

theorem transfer (h : Owns own held) {dst src : ι} (hne : dst ≠ src) (hdst : own dst = none) :
    Owns (Function.update (Function.update own dst (own src)) src none) held := by
  rw [Function.update_comm hne]
  cases hsrc : own src with
  | none =>
    rw [← hsrc, Function.update_eq_self, hsrc, ← hdst, Function.update_eq_self]
    exact h
  | some r =>
    have hgiven : Owns (Function.update own src none) (held \ {r}) := h.replace (hsrc ▸ Swaps.release r)
    have hfree : Function.update own src none dst = none := by
      rw [Function.update_of_ne hne, hdst]
    have hfresh : r ∉ held \ {r} := fun hmem => hmem.2 rfl
    have htaken := hgiven.replace (i := dst) (hfree ▸ Swaps.acquire hfresh)
    rwa [Set.insert_sdiff_singleton, Set.insert_eq_of_mem (h.mem hsrc)] at htaken

end Owns
end Basis
