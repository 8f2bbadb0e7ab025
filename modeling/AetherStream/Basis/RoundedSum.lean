import Mathlib.Algebra.Order.BigOperators.Group.List
import AetherStream.Basis.Rounding

/-! Sums in rounded arithmetic: every term is rounded, and every partial sum. -/

namespace Basis

structure RelativeRounding (rnd : ℚ → ℚ) (u : ℚ) : Prop where
  unit_nonneg : 0 ≤ u
  unit_le_one : u ≤ 1
  lower : ∀ {x}, 0 ≤ x → (1 - u) * x ≤ rnd x
  upper : ∀ {x}, 0 ≤ x → rnd x ≤ (1 + u) * x

theorem relativeRounding_roundNearest (t : ℕ) : RelativeRounding (roundNearest t) (1 / 2 ^ (t + 1)) := by
  have hnear {x : ℚ} (hx : 0 ≤ x) : |roundNearest t x - x| ≤ 1 / 2 ^ (t + 1) * x := by
    rcases hx.eq_or_lt with rfl | hpos
    · simp [roundNearest_zero]
    · calc |roundNearest t x - x| ≤ ulp t x / 2 := abs_roundNearest_sub_le x
        _ ≤ x / 2 ^ t / 2 := div_le_div_of_nonneg_right (ulp_le hpos) (by norm_num)
        _ = 1 / 2 ^ (t + 1) * x := by rw [pow_succ]; ring
  refine ⟨by positivity, div_le_one_of_le₀ (one_le_pow₀ (by norm_num)) (by positivity), fun hx => ?_, fun hx => ?_⟩
  · have hlow := (abs_le.mp (hnear hx)).1
    linarith
  · have hhigh := (abs_le.mp (hnear hx)).2
    linarith

def roundedSum (rnd : ℚ → ℚ) (total : ℚ) (xs : List ℚ) : ℚ := xs.foldl (fun total x => rnd (total + rnd x)) total

namespace RelativeRounding
variable {rnd : ℚ → ℚ} {u : ℚ} (h : RelativeRounding rnd u)
include h

theorem nonneg {x : ℚ} (hx : 0 ≤ x) : 0 ≤ rnd x :=
  (mul_nonneg (sub_nonneg.mpr h.unit_le_one) hx).trans (h.lower hx)

theorem le_roundedSum {low total : ℚ} {xs : List ℚ} (hxs : ∀ x ∈ xs, 0 ≤ x) (hlow : 0 ≤ low) (htotal : low ≤ total) :
    (1 - u) ^ xs.length * (low + (1 - u) * xs.sum) ≤ roundedSum rnd total xs := by
  have hu : 0 ≤ 1 - u := sub_nonneg.mpr h.unit_le_one
  have hu' : 1 - u ≤ 1 := sub_le_self 1 h.unit_nonneg
  induction xs generalizing low total with
  | nil => simpa [roundedSum] using htotal
  | cons x xs ih =>
    obtain ⟨hx, hxs⟩ := List.forall_mem_cons.mp hxs
    have hterm : low + (1 - u) * x ≤ total + rnd x := add_le_add htotal (h.lower hx)
    have hterm₀ : 0 ≤ low + (1 - u) * x := add_nonneg hlow (mul_nonneg hu hx)
    have hnext : (1 - u) * (low + (1 - u) * x) ≤ rnd (total + rnd x) :=
      (mul_le_mul_of_nonneg_left hterm hu).trans (h.lower (hterm₀.trans hterm))
    refine le_trans ?_ (ih hxs (mul_nonneg hu hterm₀) hnext)
    have hsum : 0 ≤ (1 - u) * xs.sum := mul_nonneg hu (List.sum_nonneg hxs)
    have hless : (1 - u) * ((1 - u) * xs.sum) ≤ (1 - u) * xs.sum := mul_le_of_le_one_left hsum hu'
    rw [List.length_cons, List.sum_cons, pow_succ, mul_assoc]
    refine mul_le_mul_of_nonneg_left ?_ (pow_nonneg hu _)
    calc (1 - u) * (low + (1 - u) * (x + xs.sum))
        = (1 - u) * (low + (1 - u) * x) + (1 - u) * ((1 - u) * xs.sum) := by ring
      _ ≤ (1 - u) * (low + (1 - u) * x) + (1 - u) * xs.sum := by gcongr

theorem roundedSum_le {total high : ℚ} {xs : List ℚ} (hxs : ∀ x ∈ xs, 0 ≤ x) (htotal₀ : 0 ≤ total)
    (htotal : total ≤ high) : roundedSum rnd total xs ≤ (1 + u) ^ xs.length * (high + (1 + u) * xs.sum) := by
  have hu : 0 ≤ 1 + u := by linarith [h.unit_nonneg]
  induction xs generalizing total high with
  | nil => simpa [roundedSum] using htotal
  | cons x xs ih =>
    obtain ⟨hx, hxs⟩ := List.forall_mem_cons.mp hxs
    have hterm₀ : 0 ≤ total + rnd x := add_nonneg htotal₀ (h.nonneg hx)
    have hterm : total + rnd x ≤ high + (1 + u) * x := add_le_add htotal (h.upper hx)
    have hnext : rnd (total + rnd x) ≤ (1 + u) * (high + (1 + u) * x) :=
      (h.upper hterm₀).trans (mul_le_mul_of_nonneg_left hterm hu)
    refine (ih hxs (h.nonneg hterm₀) hnext).trans ?_
    have hsum : 0 ≤ (1 + u) * xs.sum := mul_nonneg hu (List.sum_nonneg hxs)
    have hmore : (1 + u) * xs.sum ≤ (1 + u) * ((1 + u) * xs.sum) :=
      le_mul_of_one_le_left hsum (le_add_of_nonneg_right h.unit_nonneg)
    rw [List.length_cons, List.sum_cons, pow_succ, mul_assoc]
    refine mul_le_mul_of_nonneg_left ?_ (pow_nonneg hu _)
    calc (1 + u) * (high + (1 + u) * x) + (1 + u) * xs.sum
        ≤ (1 + u) * (high + (1 + u) * x) + (1 + u) * ((1 + u) * xs.sum) := by gcongr
      _ = (1 + u) * (high + (1 + u) * (x + xs.sum)) := by ring

end RelativeRounding

theorem MonotoneRounding.roundedSum_eq {rnd : ℚ → ℚ} {N : ℕ} (h : MonotoneRounding rnd N) {total : ℕ} {xs : List ℕ}
    (hsum : total + xs.sum ≤ N) : roundedSum rnd total (xs.map (↑)) = (total + xs.sum : ℕ) := by
  induction xs generalizing total with
  | nil => simp [roundedSum]
  | cons x xs ih =>
    rw [List.sum_cons, ← Nat.add_assoc] at hsum ⊢
    have hnext : rnd ((total : ℚ) + rnd x) = (total + x : ℕ) := by
      rw [h.natCast x (by omega), ← Nat.cast_add, h.natCast _ (by omega)]
    rw [roundedSum, List.map_cons, List.foldl_cons, hnext]
    exact ih hsum

end Basis
