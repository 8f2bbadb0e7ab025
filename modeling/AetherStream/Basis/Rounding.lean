import Mathlib.Order.Monotone.Odd
import Mathlib.Algebra.Order.Floor.Ring
import Mathlib.Data.Int.Log
import Mathlib.Data.Rat.Floor
import Mathlib.Tactic.FieldSimp
import Mathlib.Tactic.Linarith
import Mathlib.Tactic.NormNum
import Mathlib.Tactic.Positivity
import Mathlib.Tactic.Ring

/-! Rounding of rationals: what a monotone rounding has to keep, and the rounding to the nearest
number with a significand of `t + 1` bits and an unbounded exponent, ties to even. With `t = 52`
this is binary64 wherever neither overflow nor subnormal numbers come in. -/

namespace Basis

structure MonotoneRounding (rnd : ℚ → ℚ) (N : ℕ) : Prop where
  mono : Monotone rnd
  natCast : ∀ n ≤ N, rnd (n : ℚ) = n

def roundEven (q : ℚ) : ℤ :=
  if Int.fract q < 1 / 2 then ⌊q⌋
  else if 1 / 2 < Int.fract q then ⌊q⌋ + 1
  else if Even ⌊q⌋ then ⌊q⌋ else ⌊q⌋ + 1

theorem abs_roundEven_sub_le (q : ℚ) : |(roundEven q : ℚ) - q| ≤ 1 / 2 := by
  have hsplit := Int.floor_add_fract q
  have hlow := Int.fract_nonneg q
  have hhigh := Int.fract_lt_one q
  rw [abs_le]
  unfold roundEven
  split_ifs <;> push_cast <;> constructor <;> linarith

theorem roundEven_eq_of_abs_lt {q : ℚ} {n : ℤ} (hnear : |q - n| < 1 / 2) : roundEven q = n := by
  have hround := abs_le.mp (abs_roundEven_sub_le q)
  have hq := abs_lt.mp hnear
  have hlt : |((roundEven q - n : ℤ) : ℚ)| < 1 := by
    push_cast
    rw [abs_lt]
    constructor <;> linarith [hround.1, hround.2, hq.1, hq.2]
  have hzero : |roundEven q - n| < 1 := by exact_mod_cast hlt
  exact sub_eq_zero.mp (Int.abs_lt_one_iff.mp hzero)

@[simp] theorem roundEven_intCast (n : ℤ) : roundEven n = n :=
  roundEven_eq_of_abs_lt (by norm_num)

theorem roundEven_mono {x y : ℚ} (hxy : x ≤ y) : roundEven x ≤ roundEven y := by
  have hfloor : ⌊x⌋ ≤ ⌊y⌋ := Int.floor_le_floor hxy
  have hx : roundEven x = ⌊x⌋ ∨ roundEven x = ⌊x⌋ + 1 := by
    unfold roundEven
    split_ifs <;> simp
  have hy : roundEven y = ⌊y⌋ ∨ roundEven y = ⌊y⌋ + 1 := by
    unfold roundEven
    split_ifs <;> simp
  rcases hfloor.lt_or_eq with hlt | heq
  · omega
  · -- with one floor the fractions decide
    have hfract : Int.fract x ≤ Int.fract y := by
      rw [Int.fract, Int.fract, heq]
      linarith
    unfold roundEven
    rw [heq]
    split_ifs <;> first | omega | (exfalso; linarith)

theorem roundEven_neg (q : ℚ) : roundEven (-q) = -roundEven q := by
  by_cases htie : Int.fract q = 1 / 2
  · have hq : q = ⌊q⌋ + 1 / 2 := by rw [← htie, Int.floor_add_fract]
    have hfloor : ⌊-q⌋ = -⌊q⌋ - 1 := by
      rw [Int.floor_eq_iff]
      push_cast
      constructor <;> linarith
    have hfract : Int.fract (-q) = 1 / 2 := by
      rw [Int.fract, hfloor]
      push_cast
      linarith
    have hparity : Even (-⌊q⌋ - 1) ↔ ¬ Even ⌊q⌋ := by
      rw [Int.even_sub_one, even_neg]
    unfold roundEven
    rw [hfract, htie, hfloor]
    simp only [lt_irrefl, if_false, hparity]
    split_ifs <;> omega
  · have hlow := Int.fract_nonneg q
    have hhigh := Int.fract_lt_one q
    have hsplit := Int.floor_add_fract q
    have hnear : |q - roundEven q| < 1 / 2 := by
      rw [abs_lt]
      unfold roundEven
      rcases lt_or_gt_of_ne htie with hlt | hgt
      · rw [if_pos hlt]
        constructor <;> linarith
      · rw [if_neg hgt.le.not_gt, if_pos hgt]
        push_cast
        constructor <;> linarith
    refine roundEven_eq_of_abs_lt ?_
    rw [← abs_neg]
    push_cast
    rwa [show -(-q - -(roundEven q : ℚ)) = q - roundEven q by ring]

section Nearest
variable (t : ℕ)

def ulp (q : ℚ) : ℚ := 2 ^ (Int.log 2 |q| - t)

def roundNearest (q : ℚ) : ℚ := roundEven (q / ulp t q) * ulp t q

theorem ulp_pos (q : ℚ) : 0 < ulp t q := zpow_pos (by norm_num) _

theorem roundNearest_neg (q : ℚ) : roundNearest t (-q) = -roundNearest t q := by
  have hulp : ulp t (-q) = ulp t q := by rw [ulp, abs_neg, ← ulp]
  rw [roundNearest, hulp, neg_div, roundEven_neg, Int.cast_neg, neg_mul, ← roundNearest]

variable {t}

theorem ulp_of_binade {q : ℚ} {e : ℤ} (hlow : (2 : ℚ) ^ e ≤ q) (hhigh : q < 2 ^ (e + 1)) :
    ulp t q = 2 ^ (e - t) := by
  have hpos : 0 < q := (zpow_pos (by norm_num) e).trans_le hlow
  have hlog : Int.log 2 q = e := by
    have hge := (Int.zpow_le_iff_le_log (by norm_num : 1 < 2) hpos).mp (by exact_mod_cast hlow)
    have hlt := (Int.lt_zpow_iff_log_lt (by norm_num : 1 < 2) hpos).mp (by exact_mod_cast hhigh)
    omega
  rw [ulp, abs_of_pos hpos, hlog]

theorem exists_binade {q : ℚ} (hpos : 0 < q) : ∃ e : ℤ, (2 : ℚ) ^ e ≤ q ∧ q < 2 ^ (e + 1) :=
  ⟨Int.log 2 q, by exact_mod_cast Int.zpow_log_le_self (by norm_num) hpos,
    by exact_mod_cast Int.lt_zpow_succ_log_self (by norm_num) q⟩

theorem roundNearest_of_binade {q : ℚ} {e n : ℤ} (hlow : (2 : ℚ) ^ e ≤ q) (hhigh : q < 2 ^ (e + 1))
    (hnear : |q / 2 ^ (e - t) - n| < 1 / 2) : roundNearest t q = n * 2 ^ (e - t) := by
  rw [roundNearest, ulp_of_binade hlow hhigh, roundEven_eq_of_abs_lt hnear]

theorem abs_roundNearest_sub_le (q : ℚ) : |roundNearest t q - q| ≤ ulp t q / 2 := by
  have hpos := ulp_pos t q
  have hscale : roundNearest t q - q = (roundEven (q / ulp t q) - q / ulp t q) * ulp t q := by
    rw [sub_mul, div_mul_cancel₀ _ hpos.ne', roundNearest]
  rw [hscale, abs_mul, abs_of_pos hpos]
  calc |(roundEven (q / ulp t q) : ℚ) - q / ulp t q| * ulp t q
      ≤ 1 / 2 * ulp t q := mul_le_mul_of_nonneg_right (abs_roundEven_sub_le _) hpos.le
    _ = ulp t q / 2 := by ring

theorem ulp_le {q : ℚ} (hpos : 0 < q) : ulp t q ≤ q / 2 ^ t := by
  obtain ⟨e, hlow, hhigh⟩ := exists_binade hpos
  rw [ulp_of_binade hlow hhigh, zpow_sub₀ (by norm_num), zpow_natCast]
  exact div_le_div_of_nonneg_right hlow (by positivity)

theorem roundNearest_mem_binade {q : ℚ} {e : ℤ} (hlow : (2 : ℚ) ^ e ≤ q) (hhigh : q < 2 ^ (e + 1)) :
    (2 : ℚ) ^ e ≤ roundNearest t q ∧ roundNearest t q ≤ 2 ^ (e + 1) := by
  have hpos : (0 : ℚ) < 2 ^ (e - t) := zpow_pos (by norm_num) _
  have hscale (k : ℕ) : ((2 ^ k : ℤ) : ℚ) * 2 ^ (e - t) = 2 ^ (e + k - t) := by
    push_cast
    rw [← zpow_natCast, ← zpow_add₀ (by norm_num)]
    congr 1
    ring
  have hlow' : ((2 ^ t : ℤ) : ℚ) ≤ q / 2 ^ (e - t) := by
    rwa [le_div_iff₀ hpos, hscale, show e + t - t = e by ring]
  have hhigh' : q / 2 ^ (e - t) ≤ ((2 ^ (t + 1) : ℤ) : ℚ) := by
    rw [div_le_iff₀ hpos, hscale, show e + (t + 1 : ℕ) - t = e + 1 by push_cast; ring]
    exact hhigh.le
  have hround := And.intro (roundEven_mono hlow') (roundEven_mono hhigh')
  rw [roundEven_intCast, roundEven_intCast] at hround
  rw [roundNearest, ulp_of_binade hlow hhigh]
  constructor
  · calc (2 : ℚ) ^ e = ((2 ^ t : ℤ) : ℚ) * 2 ^ (e - t) := by rw [hscale, show e + t - t = e by ring]
      _ ≤ roundEven (q / 2 ^ (e - t)) * 2 ^ (e - t) :=
        mul_le_mul_of_nonneg_right (by exact_mod_cast hround.1) hpos.le
  · calc (roundEven (q / 2 ^ (e - t)) : ℚ) * 2 ^ (e - t)
        ≤ ((2 ^ (t + 1) : ℤ) : ℚ) * 2 ^ (e - t) :=
          mul_le_mul_of_nonneg_right (by exact_mod_cast hround.2) hpos.le
      _ = 2 ^ (e + 1) := by rw [hscale, show e + (t + 1 : ℕ) - t = e + 1 by push_cast; ring]

theorem roundNearest_zero : roundNearest t 0 = 0 := by
  rw [roundNearest, zero_div, show roundEven 0 = 0 from roundEven_intCast 0, Int.cast_zero, zero_mul]

theorem roundNearest_mono : Monotone (roundNearest t) := by
  refine monotone_of_odd_of_monotoneOn_nonneg (roundNearest_neg t) fun x hx y _ hxy => ?_
  rcases (Set.mem_Ici.mp hx).eq_or_lt with hzero | hpos
  · rw [← hzero, roundNearest_zero]
    rcases (hzero.trans_le hxy).eq_or_lt with hzero' | hpos'
    · rw [← hzero', roundNearest_zero]
    · obtain ⟨e, hlow, hhigh⟩ := exists_binade hpos'
      exact (zpow_pos (by norm_num) e).le.trans (roundNearest_mem_binade hlow hhigh).1
  · obtain ⟨e, hlow, hhigh⟩ := exists_binade hpos
    obtain ⟨e', hlow', hhigh'⟩ := exists_binade (hpos.trans_le hxy)
    have hle : e < e' + 1 := (zpow_lt_zpow_iff_right₀ (by norm_num : (1 : ℚ) < 2)).mp
      (hlow.trans_lt (hxy.trans_lt hhigh'))
    rcases (Int.lt_add_one_iff.mp hle).eq_or_lt with rfl | hlt
    · rw [roundNearest, roundNearest, ulp_of_binade hlow hhigh, ulp_of_binade hlow' hhigh']
      have hunit : (0 : ℚ) < 2 ^ (e - t) := zpow_pos (by norm_num) _
      refine mul_le_mul_of_nonneg_right ?_ hunit.le
      exact_mod_cast roundEven_mono (div_le_div_of_nonneg_right hxy hunit.le)
    · -- a power of two separates the values
      calc roundNearest t x ≤ 2 ^ (e + 1) := (roundNearest_mem_binade hlow hhigh).2
        _ ≤ 2 ^ e' := zpow_le_zpow_right₀ (by norm_num) (by omega)
        _ ≤ roundNearest t y := (roundNearest_mem_binade hlow' hhigh').1

theorem roundNearest_eq_natCast {x : ℚ} {m : ℕ} (hpos : 0 < x) (hlt : x < 2 ^ (t + 1))
    (hnear : |x - m| * 2 ^ (t + 2) ≤ x) : roundNearest t x = m := by
  obtain ⟨e, hlow, hhigh⟩ := exists_binade hpos
  have hle : e < (t + 1 : ℕ) := (zpow_lt_zpow_iff_right₀ (by norm_num : (1 : ℚ) < 2)).mp
    (hlow.trans_lt (by rwa [zpow_natCast]))
  obtain ⟨k, hk⟩ : ∃ k : ℕ, e - t = -(k : ℤ) := ⟨(t - e).toNat, by omega⟩
  have hunit : (2 : ℚ) ^ (e - t) = (2 ^ k)⁻¹ := by rw [hk, zpow_neg, zpow_natCast]
  have hinteger : ((m * 2 ^ k : ℤ) : ℚ) * 2 ^ (e - t) = m := by
    rw [hunit]
    push_cast
    field_simp
  rw [roundNearest_of_binade hlow hhigh (n := m * 2 ^ k), hinteger]
  have hscaled : x / 2 ^ (e - t) - ((m * 2 ^ k : ℤ) : ℚ) = (x - m) * 2 ^ k := by
    rw [hunit]
    push_cast
    field_simp
  have hbinade : x < 2 ^ (t + 1) / 2 ^ k := by
    rw [div_eq_mul_inv, ← hunit, ← zpow_natCast, ← zpow_add₀ (by norm_num)]
    rwa [show ((t + 1 : ℕ) : ℤ) + (e - t) = e + 1 by push_cast; ring]
  rw [hscaled, abs_mul, abs_of_pos (by positivity : (0 : ℚ) < 2 ^ k)]
  rw [lt_div_iff₀ (by positivity)] at hbinade
  have hdouble : |x - m| * 2 ^ k * 2 ^ (t + 2) ≤ x * 2 ^ k := by
    calc |x - m| * 2 ^ k * 2 ^ (t + 2) = |x - m| * 2 ^ (t + 2) * 2 ^ k := by ring
      _ ≤ x * 2 ^ k := mul_le_mul_of_nonneg_right hnear (by positivity)
  have hpow : (2 : ℚ) ^ (t + 2) = 2 * 2 ^ (t + 1) := by ring
  have hlast : |x - m| * 2 ^ k * 2 * 2 ^ (t + 1) < 1 * 2 ^ (t + 1) := by
    calc |x - m| * 2 ^ k * 2 * 2 ^ (t + 1) = |x - m| * 2 ^ k * 2 ^ (t + 2) := by rw [hpow]; ring
      _ ≤ x * 2 ^ k := hdouble
      _ < 2 ^ (t + 1) := hbinade
      _ = 1 * 2 ^ (t + 1) := (one_mul _).symm
  have hhalf := lt_of_mul_lt_mul_right hlast (by positivity)
  linarith

theorem roundNearest_natCast {n : ℕ} (hn : n < 2 ^ (t + 1)) : roundNearest t n = n := by
  rcases Nat.eq_zero_or_pos n with rfl | hpos
  · exact_mod_cast roundNearest_zero
  · have hpos' : (0 : ℚ) < n := by exact_mod_cast hpos
    refine roundNearest_eq_natCast hpos' (by exact_mod_cast hn) ?_
    rw [sub_self, abs_zero, zero_mul]
    exact hpos'.le

theorem monotoneRounding_roundNearest {N : ℕ} (hN : N < 2 ^ (t + 1)) : MonotoneRounding (roundNearest t) N :=
  ⟨roundNearest_mono, fun _ hn => roundNearest_natCast (hn.trans_lt hN)⟩

end Nearest
end Basis
