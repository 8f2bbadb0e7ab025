import Mathlib.Tactic.Linarith
import Mathlib.Tactic.NormNum.GCD
import Mathlib.Tactic.NormNum.Prime
import AetherStream.Metrics.LatencyHistogram

/-! The percentiles against the nearest rank that the documentation gives, in binary64. The
quotients `95 / 100` and `99 / 100` are rounded down and the product finds its way back to
every integer; `99.9 / 100` is rounded up, by enough to push an integral product over. -/

namespace AetherStream.Metrics
open Basis

abbrev binary64 : ℚ → ℚ := roundNearest 52

namespace LatencyHistogram

/-- The sample of 1-based rank `ceil(num / den * N)` in sorted order. -/
def nearestRank (h : LatencyHistogram) (num den : ℕ) : Option UInt64 :=
  h.sorted[⌈(num * h.count : ℚ) / den⌉₊ - 1]?

end LatencyHistogram

section Ceil

theorem ceil_eq_of_between {y : ℚ} {m : ℕ} (hlow : (m : ℚ) < y) (hhigh : y ≤ m + 1) : ⌈y⌉₊ = m + 1 := by
  refine (Nat.ceil_eq_iff (Nat.add_one_ne_zero m)).mpr ⟨?_, ?_⟩
  · rwa [Nat.add_sub_cancel]
  · exact_mod_cast hhigh

theorem ceil_eq_of_scaled_between {y d : ℚ} {m : ℕ} (hd : 0 < d) (hlow : d * m < y * d) (hhigh : y * d ≤ d * m + d) :
    ⌈y⌉₊ = m + 1 := by
  refine ceil_eq_of_between (lt_of_mul_lt_mul_right ?_ hd.le) (le_of_mul_le_mul_right ?_ hd)
  · rwa [mul_comm (m : ℚ)]
  · rwa [add_mul, one_mul, mul_comm (m : ℚ)]

theorem ceil_eq_of_near_fraction {y : ℚ} {z den : ℕ} (hden : 0 < den) (hdvd : ¬ den ∣ z)
    (hnear : |y - (z : ℚ) / den| * den < 1) : ⌈y⌉₊ = ⌈(z : ℚ) / den⌉₊ := by
  have hden' : (0 : ℚ) < den := by exact_mod_cast hden
  have hdiv := Nat.div_add_mod z den
  have hmod : 1 ≤ z % den := Nat.one_le_iff_ne_zero.mpr fun h => hdvd (Nat.dvd_of_mod_eq_zero h)
  have hlt := Nat.mod_lt z hden
  set m := z / den
  have hfrac : (z : ℚ) / den * den = den * m + (z % den : ℕ) := by
    rw [div_mul_cancel₀ _ hden'.ne']
    exact_mod_cast hdiv.symm
  have hlow : (den : ℚ) * m + 1 ≤ (z : ℚ) / den * den := by
    rw [hfrac]
    have : (1 : ℚ) ≤ (z % den : ℕ) := by exact_mod_cast hmod
    linarith
  have hhigh : (z : ℚ) / den * den + 1 ≤ den * m + den := by
    rw [hfrac]
    have : ((z % den : ℕ) : ℚ) + 1 ≤ den := by exact_mod_cast hlt
    linarith
  have hdist : -1 < y * den - (z : ℚ) / den * den ∧ y * den - (z : ℚ) / den * den < 1 := by
    rw [← sub_mul, ← abs_lt, abs_mul, abs_of_pos hden']
    exact hnear
  have hy : ⌈y⌉₊ = m + 1 := ceil_eq_of_scaled_between hden' (by linarith) (by linarith)
  have hz : ⌈(z : ℚ) / den⌉₊ = m + 1 := ceil_eq_of_scaled_between hden' (by linarith) (by linarith)
  rw [hy, hz]

end Ceil

section Rank
variable {N : ℕ}

theorem index_eq_rank_sub_one (rnd : ℚ → ℚ) (N : ℕ) (p : ℚ) : index rnd N p = rank rnd N p - 1 := by
  unfold index
  split_ifs with hzero
  · rw [hzero]
  · rfl

theorem LatencyHistogram.percentile_eq_rank (rnd : ℚ → ℚ) {h : LatencyHistogram} (hN : 1 ≤ h.count) {p : ℚ}
    (hlow : 0 < p) (hhigh : p < 100) : h.percentile rnd (.ofRat p) = h.sorted[rank rnd h.count p - 1]? := by
  have hlow' : ¬ Double.ofRat p ≤ .ofRat 0 := mt Double.ofRat_le_ofRat.mp (not_le.mpr hlow)
  have hhigh' : ¬ Double.ofRat 100 ≤ .ofRat p := mt Double.ofRat_le_ofRat.mp (not_le.mpr hhigh)
  rw [percentile_eq rnd hN, position, if_neg hlow', if_neg hhigh', index_eq_rank_sub_one]
  rfl

theorem rank_binary64 (hN : N < 2 ^ 32) (p : ℚ) :
    rank binary64 N p = ⌈binary64 (binary64 (p / 100) * N)⌉₊ := by
  have hexact : binary64 N = N := roundNearest_natCast (hN.trans (by norm_num))
  rw [rank, hexact]

theorem binary64_of_half_le {q : ℚ} {n : ℤ} (hlow : 1 / 2 ≤ q) (hhigh : q < 1) (hnear : |q * 2 ^ 53 - n| < 1 / 2) :
    binary64 q = n / 2 ^ 53 := by
  have hunit : (2 : ℚ) ^ ((-1 : ℤ) - (52 : ℕ)) = (2 ^ 53)⁻¹ := by norm_num
  rw [binary64, roundNearest_of_binade (e := -1) (n := n) (by norm_num; linarith) (by norm_num; exact hhigh), hunit]
  · rfl
  · rwa [hunit, div_inv_eq_mul]

theorem abs_binary64_sub_le {x : ℚ} (hpos : 0 < x) : |binary64 x - x| ≤ x / 2 ^ 53 := by
  have hround := abs_roundNearest_sub_le (t := 52) x
  have hulp := ulp_le (t := 52) hpos
  have hhalf : x / 2 ^ 52 / 2 = x / 2 ^ 53 := by ring
  linarith

variable {c : ℚ} {num den : ℕ}

theorem abs_product_sub_le {scale bound : ℚ} (hnear : |c - (num : ℚ) / den| * scale ≤ bound) :
    |c * N - ((num * N : ℕ) : ℚ) / den| * scale ≤ bound * N := by
  have hN : (0 : ℚ) ≤ N := N.cast_nonneg
  have hexact : c * N - ((num * N : ℕ) : ℚ) / den = (c - num / den) * N := by
    push_cast
    ring
  rw [hexact, abs_mul, abs_of_nonneg hN, mul_right_comm]
  exact mul_le_mul_of_nonneg_right hnear hN

theorem ceil_binary64_of_not_dvd (hN : N < 2 ^ 32) (hpos : 0 < N) (hc : 0 < c) (hc' : c ≤ 1)
    (hden : 0 < den) (hsmall : den ≤ 1000) (hnear : |c - (num : ℚ) / den| * 2 ^ 53 ≤ 1)
    (hdvd : ¬ den ∣ num * N) : ⌈binary64 (c * N)⌉₊ = ⌈((num * N : ℕ) : ℚ) / den⌉₊ := by
  have hN' : (N : ℚ) ≤ 2 ^ 32 := by exact_mod_cast hN.le
  have hpos' : (0 : ℚ) < N := by exact_mod_cast hpos
  have hsmall' : (den : ℚ) ≤ 1000 := by exact_mod_cast hsmall
  refine ceil_eq_of_near_fraction hden hdvd ?_
  have hproduct := abs_product_sub_le (N := N) hnear
  have hround : |binary64 (c * N) - c * N| * 2 ^ 53 ≤ 2 ^ 32 := by
    have hle := abs_binary64_sub_le (mul_pos hc hpos')
    rw [le_div_iff₀ (by positivity)] at hle
    have hcN : c * N ≤ 1 * N := mul_le_mul_of_nonneg_right hc' hpos'.le
    linarith
  have htotal : |binary64 (c * N) - ((num * N : ℕ) : ℚ) / den| ≤
      |binary64 (c * N) - c * N| + |c * N - ((num * N : ℕ) : ℚ) / den| := abs_sub_le ..
  calc |binary64 (c * N) - ((num * N : ℕ) : ℚ) / den| * den
      ≤ |binary64 (c * N) - ((num * N : ℕ) : ℚ) / den| * 1000 := mul_le_mul_of_nonneg_left hsmall' (abs_nonneg _)
    _ < 1 := by linarith

theorem ceil_binary64_of_close (hN : N < 2 ^ 32) (hpos : 0 < N) (hc' : c ≤ 1) (hden : 0 < den)
    (hsmall : den ≤ 1000) (hc : 0 < c) (hclose : |c - (num : ℚ) / den| * 2 ^ 54 ≤ c) :
    ⌈binary64 (c * N)⌉₊ = ⌈((num * N : ℕ) : ℚ) / den⌉₊ := by
  have hpos' : (0 : ℚ) < N := by exact_mod_cast hpos
  have hden' : (0 : ℚ) < den := by exact_mod_cast hden
  by_cases hdvd : den ∣ num * N
  · obtain ⟨m, hm⟩ := hdvd
    have hexact : ((num * N : ℕ) : ℚ) / den = m := by
      rw [hm, Nat.cast_mul, mul_div_cancel_left₀ _ hden'.ne']
    have hround : binary64 (c * N) = m := by
      refine roundNearest_eq_natCast (mul_pos hc hpos') ?_ ?_
      · have hN' : (N : ℚ) < 2 ^ 32 := by exact_mod_cast hN
        calc c * N ≤ 1 * N := mul_le_mul_of_nonneg_right hc' hpos'.le
          _ < 2 ^ 32 := by rwa [one_mul]
          _ < 2 ^ (52 + 1) := by norm_num
      · rw [← hexact]
        exact abs_product_sub_le hclose
    rw [hround, hexact]
  · refine ceil_binary64_of_not_dvd hN hpos hc hc' hden hsmall ?_ hdvd
    linarith

theorem binary64_natCast {n : ℕ} (hn : n < 2 ^ 53) : binary64 n = n := roundNearest_natCast hn

theorem binary64_quotient_50 : binary64 (50 / 100) = 1 / 2 := by
  rw [binary64_of_half_le (n := 2 ^ 52) (by norm_num) (by norm_num) (by norm_num)]
  norm_num

theorem binary64_quotient_95 : binary64 (95 / 100) = 8556839292003942 / 2 ^ 53 := by
  rw [binary64_of_half_le (n := 8556839292003942) (by norm_num) (by norm_num) (by norm_num [abs_lt])]
  norm_num

theorem binary64_quotient_99 : binary64 (99 / 100) = 8917127262193582 / 2 ^ 53 := by
  rw [binary64_of_half_le (n := 8917127262193582) (by norm_num) (by norm_num) (by norm_num [abs_lt])]
  norm_num

theorem binary64_literal_999 : binary64 (999 / 10) = 7029837543348634 / 2 ^ 46 := by
  have hunit : (2 : ℚ) ^ ((6 : ℤ) - (52 : ℕ)) = (2 ^ 46)⁻¹ := by norm_num
  rw [binary64, roundNearest_of_binade (e := 6) (n := 7029837543348634) (by norm_num) (by norm_num), hunit]
  · norm_num
  · rw [hunit]
    norm_num [abs_lt]

theorem binary64_quotient_999 : binary64 (binary64 (999 / 10) / 100) = 8998192055486252 / 2 ^ 53 := by
  rw [binary64_literal_999,
    binary64_of_half_le (n := 8998192055486252) (by norm_num) (by norm_num) (by norm_num [abs_lt])]
  norm_num

section Thousands
variable {k e : ℕ} (hlt : 1000 * k < 2 ^ 32) (hlow : 2 ^ e ≤ 999 * k) (hhigh : 999 * k < 2 ^ (e + 1))
include hlt hlow

theorem exponent_lt : e < 32 := (Nat.pow_lt_pow_iff_right (by norm_num : 1 < 2)).mp (by omega)

include hhigh

theorem binary64_thousands {n : ℕ} (hnear : |992 * (k : ℚ) / 2 ^ (e + 1) - n| < 1 / 2) :
    binary64 (8998192055486252 / 2 ^ 53 * (1000 * k : ℕ)) = 999 * k + n * 2 ^ ((e : ℤ) - 52) := by
  have he := exponent_lt hlt hlow
  obtain ⟨j, hj⟩ : ∃ j, e + j = 52 := ⟨52 - e, by omega⟩
  have hunit : (2 : ℚ) ^ ((e : ℤ) - (52 : ℕ)) = (2 ^ j)⁻¹ := by
    rw [show (e : ℤ) - (52 : ℕ) = -(j : ℤ) by omega, zpow_neg, zpow_natCast]
  have hproduct : 8998192055486252 / 2 ^ 53 * ((1000 * k : ℕ) : ℚ) = 999 * k + 992 * k / 2 ^ 53 := by
    push_cast
    ring
  have hlow' : (2 : ℚ) ^ e ≤ 999 * k := by exact_mod_cast hlow
  have hhigh' : (999 : ℚ) * k + 1 ≤ 2 ^ (e + 1) := by exact_mod_cast hhigh
  have hk : (k : ℚ) ≤ 2 ^ 32 := by
    have : k ≤ 2 ^ 32 := by omega
    exact_mod_cast this
  have hsmall : 992 * (k : ℚ) / 2 ^ 53 < 1 := by
    rw [div_lt_one (by positivity)]
    linarith
  have hscaled : (999 * (k : ℚ) + 992 * k / 2 ^ 53) / (2 ^ j)⁻¹ - ((999 * k * 2 ^ j + n : ℤ) : ℚ) =
      992 * k / 2 ^ (e + 1) - n := by
    have hpow : (2 : ℚ) ^ 53 = 2 ^ (e + 1) * 2 ^ j := by
      rw [← pow_add, show e + 1 + j = 53 by omega]
    rw [hpow]
    push_cast
    field_simp
    ring
  rw [hproduct, binary64, roundNearest_of_binade (e := e) (n := 999 * k * 2 ^ j + n), hunit]
  · rw [show (e : ℤ) - 52 = (e : ℤ) - (52 : ℕ) by rfl, hunit]
    push_cast
    field_simp
  · rw [zpow_natCast]
    have : (0 : ℚ) ≤ 992 * k / 2 ^ 53 := by positivity
    linarith
  · rw [show (e : ℤ) + 1 = ((e + 1 : ℕ) : ℤ) by push_cast; rfl, zpow_natCast]
    linarith
  · rwa [hunit, hscaled]

theorem ceil_binary64_thousands :
    ⌈binary64 (8998192055486252 / 2 ^ 53 * (1000 * k : ℕ))⌉₊ = if 992 * k < 2 ^ e then 999 * k else 999 * k + 1 := by
  have hpow : (2 : ℚ) ^ (e + 1) = 2 * 2 ^ e := by ring
  have hpos : (0 : ℚ) < 2 ^ (e + 1) := by positivity
  split_ifs with hdown
  · -- less than half a unit above the integer
    have hdown' : 992 * (k : ℚ) < 2 ^ e := by exact_mod_cast hdown
    have hnear : |992 * (k : ℚ) / 2 ^ (e + 1) - (0 : ℕ)| < 1 / 2 := by
      rw [Nat.cast_zero, sub_zero, abs_of_nonneg (by positivity), div_lt_iff₀ hpos]
      linarith
    rw [binary64_thousands hlt hlow hhigh hnear, Nat.cast_zero, zero_mul, add_zero]
    exact_mod_cast Nat.ceil_natCast (999 * k)
  · -- more than half a unit: half a unit would make 31 a divisor of a power of two
    have hne : 2 ^ e ≠ 992 * k := by
      intro heq
      have hdvd : 31 ∣ 2 ^ e := heq ▸ ⟨32 * k, by ring⟩
      have htwo := (by norm_num : Nat.Prime 31).dvd_of_dvd_pow hdvd
      omega
    have hup : 2 ^ e < 992 * k := lt_of_le_of_ne (Nat.not_lt.mp hdown) hne
    have hup' : (2 : ℚ) ^ e < 992 * k := by exact_mod_cast hup
    have hover : 992 * (k : ℚ) < 2 ^ (e + 1) := by
      have : 992 * k < 2 ^ (e + 1) := by omega
      exact_mod_cast this
    have hnear : |992 * (k : ℚ) / 2 ^ (e + 1) - (1 : ℕ)| < 1 / 2 := by
      rw [Nat.cast_one, abs_sub_comm, abs_of_nonneg (by rw [sub_nonneg, div_le_one hpos]; exact hover.le),
        sub_lt_comm, lt_div_iff₀ hpos]
      linarith
    have he := exponent_lt hlt hlow
    have hunit : (2 : ℚ) ^ ((e : ℤ) - 52) ≤ 1 := zpow_le_one_of_nonpos₀ (by norm_num) (by omega)
    have hunit' : (0 : ℚ) < 2 ^ ((e : ℤ) - 52) := zpow_pos (by norm_num) _
    rw [binary64_thousands hlt hlow hhigh hnear, Nat.cast_one, one_mul]
    refine ceil_eq_of_between ?_ ?_
    · push_cast
      linarith
    · push_cast
      linarith

end Thousands
end Rank

namespace LatencyHistogram
variable {h : LatencyHistogram}

/-- The sample counts at which the product is rounded down to the integer it is close to: a
power of two lies between `992 k` and `999 k`. -/
def RoundsDown (k : ℕ) : Prop := ∃ e, 992 * k < 2 ^ e ∧ 2 ^ e ≤ 999 * k

theorem roundsDown_iff {k e : ℕ} (hlow : 2 ^ e ≤ 999 * k) (hhigh : 999 * k < 2 ^ (e + 1)) :
    RoundsDown k ↔ 992 * k < 2 ^ e := by
  refine ⟨?_, fun hdown => ⟨e, hdown, hlow⟩⟩
  rintro ⟨e', hdown, hup⟩
  have hle : e' < e + 1 := (Nat.pow_lt_pow_iff_right (by norm_num : 1 < 2)).mp (hup.trans_lt hhigh)
  exact hdown.trans_le (Nat.pow_le_pow_right (by norm_num) (Nat.lt_add_one_iff.mp hle))

theorem nearestRank_of_mul {k : ℕ} (hk : h.count = 1000 * k) : h.nearestRank 999 1000 = h.sorted[999 * k - 1]? := by
  have hexact : ((999 : ℕ) * h.count : ℚ) / (1000 : ℕ) = (999 * k : ℕ) := by
    rw [hk]
    push_cast
    ring
  rw [nearestRank, hexact, Nat.ceil_natCast]

section Count
variable (hpos : 1 ≤ h.count) (hlt : h.count < 2 ^ 32)
include hpos hlt

theorem percentile_binary64 {p c : ℚ} (hlow : 0 < p) (hhigh : p < 100) (hc : binary64 (p / 100) = c) :
    h.percentile binary64 (.ofRat p) = h.sorted[⌈binary64 (c * h.count)⌉₊ - 1]? := by
  rw [percentile_eq_rank binary64 hpos hlow hhigh, rank_binary64 hlt, hc]

theorem percentile_eq_nearestRank {p c : ℚ} {num den : ℕ} (hlow : 0 < p) (hhigh : p < 100)
    (hc : binary64 (p / 100) = c) (hcpos : 0 < c) (hcle : c ≤ 1) (hden : 0 < den) (hsmall : den ≤ 1000)
    (hclose : |c - (num : ℚ) / den| * 2 ^ 54 ≤ c) : h.percentile binary64 (.ofRat p) = h.nearestRank num den := by
  rw [percentile_binary64 hpos hlt hlow hhigh hc, ceil_binary64_of_close hlt hpos hcle hden hsmall hcpos hclose,
    nearestRank, Nat.cast_mul]

theorem p50_eq_nearestRank : h.p50 binary64 = h.nearestRank 1 2 := by
  have hliteral : binary64 50 = 50 := binary64_natCast (n := 50) (by norm_num)
  rw [p50, hliteral]
  exact percentile_eq_nearestRank hpos hlt (by norm_num) (by norm_num) binary64_quotient_50 (by norm_num)
    (by norm_num) (by norm_num) (by norm_num) (by norm_num)

theorem p95_eq_nearestRank : h.p95 binary64 = h.nearestRank 95 100 := by
  have hliteral : binary64 95 = 95 := binary64_natCast (n := 95) (by norm_num)
  rw [p95, hliteral]
  exact percentile_eq_nearestRank hpos hlt (by norm_num) (by norm_num) binary64_quotient_95 (by norm_num)
    (by norm_num) (by norm_num) (by norm_num) (by norm_num [abs_of_neg])

theorem p99_eq_nearestRank : h.p99 binary64 = h.nearestRank 99 100 := by
  have hliteral : binary64 99 = 99 := binary64_natCast (n := 99) (by norm_num)
  rw [p99, hliteral]
  exact percentile_eq_nearestRank hpos hlt (by norm_num) (by norm_num) binary64_quotient_99 (by norm_num)
    (by norm_num) (by norm_num) (by norm_num) (by norm_num [abs_of_neg])

theorem p999_eq : h.p999 binary64 = h.sorted[⌈binary64 (8998192055486252 / 2 ^ 53 * h.count)⌉₊ - 1]? := by
  refine percentile_binary64 hpos hlt ?_ ?_ binary64_quotient_999
  · rw [binary64_literal_999]
    norm_num
  · rw [binary64_literal_999]
    norm_num

theorem p999_of_not_dvd (hdvd : ¬ 1000 ∣ h.count) : h.p999 binary64 = h.nearestRank 999 1000 := by
  have hcoprime : ¬ 1000 ∣ 999 * h.count := fun hmul =>
    hdvd ((by norm_num : Nat.Coprime 1000 999).dvd_of_dvd_mul_left hmul)
  rw [p999_eq hpos hlt, ceil_binary64_of_not_dvd hlt hpos (by norm_num) (by norm_num) (by norm_num) le_rfl
    (by norm_num [abs_of_pos]) hcoprime, nearestRank, Nat.cast_mul]

theorem p999_of_mul {k : ℕ} (hk : h.count = 1000 * k) [Decidable (RoundsDown k)] :
    h.p999 binary64 = if RoundsDown k then h.sorted[999 * k - 1]? else h.sorted[999 * k]? := by
  have hkpos : 999 * k ≠ 0 := by omega
  have hlow := Nat.pow_log_le_self 2 hkpos
  have hhigh := Nat.lt_pow_succ_log_self (by norm_num : 1 < 2) (999 * k)
  rw [p999_eq hpos hlt, hk, ceil_binary64_thousands (hk ▸ hlt) hlow hhigh]
  simp only [roundsDown_iff hlow hhigh]
  split_ifs
  · rfl
  · rw [Nat.add_sub_cancel]

/-- The percentiles are the documented ranks, but for `p999` at a multiple `1000 k` of 1000
samples: there it returns rank `999 k + 1`, unless a power of two happens to lie between
`992 k` and `999 k`. -/
theorem percentiles_nearestRank_iff :
    (h.p50 binary64 = h.nearestRank 1 2 ∧ h.p95 binary64 = h.nearestRank 95 100 ∧
        h.p99 binary64 = h.nearestRank 99 100 ∧ h.p999 binary64 = h.nearestRank 999 1000) ↔
      ∀ k, h.count = 1000 * k → RoundsDown k ∨ h.sorted[999 * k - 1]? = h.sorted[999 * k]? := by
  classical
  rw [and_iff_right (p50_eq_nearestRank hpos hlt), and_iff_right (p95_eq_nearestRank hpos hlt),
    and_iff_right (p99_eq_nearestRank hpos hlt)]
  by_cases hdvd : 1000 ∣ h.count
  · obtain ⟨k, hk⟩ := hdvd
    have honly : (∀ k', h.count = 1000 * k' → RoundsDown k' ∨ h.sorted[999 * k' - 1]? = h.sorted[999 * k']?) ↔
        (RoundsDown k ∨ h.sorted[999 * k - 1]? = h.sorted[999 * k]?) := by
      refine ⟨fun hall => hall k hk, fun hone k' hk' => ?_⟩
      obtain rfl : k' = k := by omega
      exact hone
    rw [honly, p999_of_mul hpos hlt hk, nearestRank_of_mul hk]
    split_ifs with hdown
    · exact iff_of_true rfl (.inl hdown)
    · rw [or_iff_right hdown, eq_comm]
  · exact iff_of_true (p999_of_not_dvd hpos hlt hdvd) fun k hk => absurd ⟨k, hk⟩ hdvd

end Count

theorem percentiles_nearestRank_roundsDown :
    let h : LatencyHistogram := ⟨List.replicate 32967 0 ++ List.replicate 33 1⟩
    h.count = 33000 ∧ h.p50 binary64 = h.nearestRank 1 2 ∧ h.p95 binary64 = h.nearestRank 95 100 ∧
      h.p99 binary64 = h.nearestRank 99 100 ∧ h.p999 binary64 = h.nearestRank 999 1000 := by
  intro h
  have hlength (n m : ℕ) : count ⟨List.replicate n 0 ++ List.replicate m 1⟩ = n + m := by simp [count]
  have hcount : h.count = 33000 := hlength 32967 33
  refine ⟨hcount, (percentiles_nearestRank_iff (by omega) (by omega)).mpr fun k hk => Or.inl ?_⟩
  obtain rfl : k = 33 := by omega
  exact ⟨15, by norm_num, by norm_num⟩

def oneSlow (n : ℕ) : LatencyHistogram := ⟨List.replicate n 0 ++ [1]⟩

theorem count_oneSlow (n : ℕ) : (oneSlow n).count = n + 1 := by
  simp [oneSlow, count]

theorem sorted_oneSlow (n : ℕ) : (oneSlow n).sorted = List.replicate n 0 ++ [1] := by
  refine List.mergeSort_of_pairwise (List.pairwise_append.mpr ⟨?_, List.pairwise_singleton _ _, ?_⟩)
  · exact List.pairwise_replicate.mpr (.inr rfl)
  · intro a ha b hb
    obtain rfl := List.eq_of_mem_replicate ha
    obtain rfl := List.mem_singleton.mp hb
    rfl

theorem sorted_oneSlow_get (n : ℕ) : (oneSlow n).sorted[n]? = some 1 := by
  rw [sorted_oneSlow, List.getElem?_append_right (by simp)]
  simp

theorem sorted_oneSlow_get_of_lt {n i : ℕ} (hi : i < n) : (oneSlow n).sorted[i]? = some 0 := by
  rw [sorted_oneSlow, List.getElem?_append_left (by simpa using hi), List.getElem?_replicate_of_lt hi]

/-- One slow sample in a thousand lies above the documented rank of `p999`, which returns it. -/
theorem p999_of_oneSlow :
    1 ≤ (oneSlow 999).count ∧ (oneSlow 999).count < 2 ^ 32 ∧ (oneSlow 999).p999 binary64 = some 1 ∧
      (oneSlow 999).nearestRank 999 1000 = some 0 := by
  classical
  have hcount : (oneSlow 999).count = 1000 * 1 := count_oneSlow 999
  have hdown : ¬ RoundsDown 1 := by
    rw [roundsDown_iff (e := 9) (by norm_num) (by norm_num)]
    norm_num
  refine ⟨by omega, by omega, ?_, ?_⟩
  · rw [p999_of_mul (by omega) (by omega) hcount, if_neg hdown]
    exact sorted_oneSlow_get 999
  · rw [nearestRank_of_mul hcount]
    exact sorted_oneSlow_get_of_lt (by norm_num)

end LatencyHistogram
end AetherStream.Metrics
