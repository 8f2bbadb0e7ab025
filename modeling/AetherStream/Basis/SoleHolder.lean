import Mathlib.Logic.Function.Basic

/-! A token that at most one of many handles holds. Handles come and go and are moved around;
every one that does not hold the token is blank. -/

namespace Basis

structure Sole {ι ρ : Type*} (Blank P : ρ → Prop) (handles : ι → Option ρ) (holder : Option ι) : Prop where
  held : ∀ i ∈ holder, ∃ r, handles i = some r ∧ P r
  others : ∀ j r, some j ≠ holder → handles j = some r → Blank r

namespace Sole
variable {ι ρ : Type*} {Blank P Q : ρ → Prop} {handles : ι → Option ρ} {holder : Option ι} {i : ι} {r : ρ}

theorem mono (h : Sole Blank P handles holder) (hPQ : ∀ r, P r → Q r) : Sole Blank Q handles holder :=
  ⟨fun i hi => (h.held i hi).imp fun _ hr => ⟨hr.1, hPQ _ hr.2⟩, h.others⟩

theorem ne_some_of_eq_none (h : Sole Blank P handles holder) (hfree : handles i = none) : holder ≠ some i := by
  rintro rfl
  obtain ⟨r, hr, -⟩ := h.held i rfl
  rw [hfree] at hr
  contradiction

theorem get (h : Sole Blank P handles (some i)) (hr : handles i = some r) : P r := by
  obtain ⟨r', hr', hP⟩ := h.held i rfl
  rw [hr] at hr'
  exact Option.some.inj hr' ▸ hP

theorem eq_some_of_not_blank (h : Sole Blank P handles holder) (hr : handles i = some r) (hblank : ¬ Blank r) :
    holder = some i := by
  by_contra hne
  exact hblank (h.others i r (Ne.symm hne) hr)

variable [DecidableEq ι]

theorem update_other (h : Sole Blank P handles holder) (hi : holder ≠ some i) {o : Option ρ}
    (ho : ∀ r ∈ o, Blank r) : Sole Blank P (Function.update handles i o) holder := by
  refine ⟨fun j hj => ?_, fun j r hj hr => ?_⟩
  · obtain rfl : holder = some j := hj
    have hne : j ≠ i := fun heq => hi (congrArg some heq)
    rw [Function.update_of_ne hne]
    exact h.held j rfl
  · by_cases hji : j = i
    · subst hji
      rw [Function.update_self] at hr
      exact ho r hr
    · rw [Function.update_of_ne hji] at hr
      exact h.others j r hj hr

theorem take (h : Sole Blank P handles holder) (hi : holder = none ∨ holder = some i) (hr : Q r) :
    Sole Blank Q (Function.update handles i (some r)) (some i) := by
  refine ⟨fun j hj => ?_, fun j r' hj hr' => ?_⟩
  · obtain rfl : i = j := Option.some.inj hj
    exact ⟨r, Function.update_self .., hr⟩
  · rw [Function.update_of_ne fun heq => hj (congrArg some heq)] at hr'
    refine h.others j r' ?_ hr'
    rcases hi with rfl | rfl
    · exact Option.some_ne_none j
    · exact hj

theorem clear (h : Sole Blank P handles (some i)) (hr : Blank r) :
    Sole Blank Q (Function.update handles i (some r)) none := by
  refine ⟨fun j hj => absurd hj (Option.not_mem_none j), fun j r' _ hr' => ?_⟩
  by_cases hji : j = i
  · subst hji
    rw [Function.update_self] at hr'
    exact Option.some.inj hr' ▸ hr
  · rw [Function.update_of_ne hji] at hr'
    exact h.others j r' (fun heq => hji (Option.some.inj heq)) hr'

theorem move {dst src : ι} {r' : ρ} (h : Sole Blank P handles holder) (hsrc : handles src = some r)
    (hr' : Blank r') (hne : dst ≠ src) (hdst : holder ≠ some dst) :
    Sole Blank P (Function.update (Function.update handles dst (some r)) src (some r'))
      (if holder = some src then some dst else holder) := by
  by_cases hholder : holder = some src
  · subst hholder
    rw [if_pos rfl, Function.update_comm hne]
    exact (h.clear (Q := P) hr').take (Or.inl rfl) (h.get hsrc)
  · rw [if_neg hholder]
    have hblank := h.others src r (Ne.symm hholder) hsrc
    refine (h.update_other hdst fun s hs => ?_).update_other hholder fun s hs => ?_
    · exact Option.some.inj hs ▸ hblank
    · exact Option.some.inj hs ▸ hr'

end Sole
end Basis
