import Mathlib.Algebra.BigOperators.Ring.Finset
import Mathlib.Algebra.Group.Action.Defs
import AetherStream.Basis.RoundedSum
import AetherStream.Metrics.NearestRank

/-! `LatencyHistogram::mean` in binary64: the samples are added up as `double`s and the sum is
divided once. -/

namespace AetherStream.Metrics
open Basis

namespace LatencyHistogram

/-- `std::accumulate` starts with `0.0`, so every sample is converted before it is added. -/
def mean (rnd : ℚ → ℚ) (h : LatencyHistogram) : ℚ :=
  if h.samples.isEmpty then 0
  else rnd (h.samples.foldl (fun total sample => rnd (total + rnd sample.toNat)) 0 / rnd h.count)

def total (h : LatencyHistogram) : ℕ := (h.samples.map UInt64.toNat).sum

def exactMean (h : LatencyHistogram) : ℚ := h.total / h.count

variable {h : LatencyHistogram}

theorem mean_eq (rnd : ℚ → ℚ) (hN : 1 ≤ h.count) :
    h.mean rnd = rnd (roundedSum rnd 0 ((h.samples.map UInt64.toNat).map (↑)) / rnd h.count) := by
  have hne : h.samples.isEmpty = false := by
    rw [List.isEmpty_eq_false_iff, ← List.length_pos_iff]
    exact hN
  rw [mean, hne, if_neg (by decide), roundedSum, List.foldl_map, List.foldl_map]

theorem cast_total : (((h.samples.map UInt64.toNat).map (↑) : List ℚ)).sum = h.total := (Nat.cast_list_sum _).symm

theorem min_le_sample {x : UInt64} (hx : x ∈ h.samples) : h.min ≤ x := by
  obtain ⟨i, hi⟩ := List.getElem?_of_mem (h.sorted_perm.mem_iff.mpr hx)
  have hN : 1 ≤ h.count := List.length_pos_of_mem hx
  exact sorted_le (Nat.zero_le i) (sorted_zero hN) hi

theorem sample_le_max {x : UInt64} (hx : x ∈ h.samples) : x ≤ h.max := by
  obtain ⟨i, hi⟩ := List.getElem?_of_mem (h.sorted_perm.mem_iff.mpr hx)
  have hN : 1 ≤ h.count := List.length_pos_of_mem hx
  have hlt : i < h.sorted.length := (List.getElem?_eq_some_iff.mp hi).1
  rw [length_sorted] at hlt
  exact sorted_le (by omega) hi (sorted_last hN)

theorem exactMean_mem (hN : 1 ≤ h.count) : (h.min.toNat : ℚ) ≤ h.exactMean ∧ h.exactMean ≤ h.max.toNat := by
  have hpos : (0 : ℚ) < h.count := by exact_mod_cast hN
  have hlen : (h.samples.map UInt64.toNat).length = h.count := List.length_map _
  rw [exactMean, le_div_iff₀ hpos, div_le_iff₀ hpos]
  constructor
  · have hsum := List.card_nsmul_le_sum (h.samples.map UInt64.toNat) h.min.toNat fun x hx => by
      obtain ⟨sample, hmem, rfl⟩ := List.mem_map.mp hx
      exact UInt64.le_iff_toNat_le.mp (min_le_sample hmem)
    rw [hlen, smul_eq_mul, mul_comm] at hsum
    exact_mod_cast hsum
  · have hsum := List.sum_le_card_nsmul (h.samples.map UInt64.toNat) h.max.toNat fun x hx => by
      obtain ⟨sample, hmem, rfl⟩ := List.mem_map.mp hx
      exact UInt64.le_iff_toNat_le.mp (sample_le_max hmem)
    rw [hlen, smul_eq_mul, mul_comm] at hsum
    exact_mod_cast hsum

theorem min_mem (hN : 1 ≤ h.count) : h.min ∈ h.samples :=
  h.sorted_perm.mem_iff.mp (List.mem_of_getElem? (sorted_zero hN))

theorem max_mem (hN : 1 ≤ h.count) : h.max ∈ h.samples :=
  h.sorted_perm.mem_iff.mp (List.mem_of_getElem? (sorted_last hN))

theorem sample_le_total {x : UInt64} (hx : x ∈ h.samples) : x.toNat ≤ h.total :=
  List.single_le_sum (fun _ _ => Nat.zero_le _) _ (List.mem_map_of_mem hx)

theorem relativeRounding_binary64 : RelativeRounding binary64 (1 / 2 ^ 53) := relativeRounding_roundNearest 52

variable (h) in
theorem roundedSum_bounds :
    let sum := roundedSum binary64 0 ((h.samples.map UInt64.toNat).map (↑))
    (1 - 1 / 2 ^ 53) ^ h.count * ((1 - 1 / 2 ^ 53) * h.total) ≤ sum ∧
      sum ≤ (1 + 1 / 2 ^ 53) ^ h.count * ((1 + 1 / 2 ^ 53) * h.total) := by
  intro sum
  have hxs : ∀ x ∈ ((h.samples.map UInt64.toNat).map (↑) : List ℚ), 0 ≤ x := by
    intro x hx
    obtain ⟨n, -, rfl⟩ := List.mem_map.mp hx
    positivity
  have hlen : ((h.samples.map UInt64.toNat).map (↑) : List ℚ).length = h.count := by
    rw [List.length_map, List.length_map]
    rfl
  have hlow := relativeRounding_binary64.le_roundedSum hxs le_rfl le_rfl
  have hhigh := relativeRounding_binary64.roundedSum_le hxs le_rfl le_rfl
  rw [hlen, cast_total, zero_add] at hlow hhigh
  exact ⟨hlow, hhigh⟩

theorem roundedSum_of_total_lt (hbelow : h.total < 2 ^ 53) :
    roundedSum binary64 0 ((h.samples.map UInt64.toNat).map (↑)) = h.total := by
  have hzero : 0 + (h.samples.map UInt64.toNat).sum ≤ h.total := (Nat.zero_add _).le
  have hall := (monotoneRounding_roundNearest hbelow).roundedSum_eq hzero
  rwa [Nat.cast_zero, Nat.zero_add] at hall

theorem binary64_exactMean_mem (hN : 1 ≤ h.count) (hbelow : h.total < 2 ^ 53) :
    h.min.toNat ≤ binary64 h.exactMean ∧ binary64 h.exactMean ≤ h.max.toNat := by
  obtain ⟨hmin, hmax⟩ := exactMean_mem hN
  have hsmall {x : UInt64} (hx : x ∈ h.samples) : binary64 x.toNat = x.toNat :=
    binary64_natCast ((sample_le_total hx).trans_lt hbelow)
  constructor
  · rw [← hsmall (min_mem hN)]
    exact roundNearest_mono hmin
  · rw [← hsmall (max_mem hN)]
    exact roundNearest_mono hmax

/-- The mean is off by no more than a factor of `1 ± 2 ^ -53` for each sample and two more. As
long as the sum is below `2 ^ 53`, only the division is rounded, and the result is between the
smallest and the largest sample. -/
theorem mean_accurate (h : LatencyHistogram) (hN : 1 ≤ h.count) (hlt : h.count < 2 ^ 53) :
    (1 - 1 / 2 ^ 53) ^ (h.count + 2) * h.exactMean ≤ h.mean binary64 ∧
    h.mean binary64 ≤ (1 + 1 / 2 ^ 53) ^ (h.count + 2) * h.exactMean ∧
    (h.total < 2 ^ 53 →
      h.mean binary64 = binary64 h.exactMean ∧
      h.min.toNat ≤ h.mean binary64 ∧ h.mean binary64 ≤ h.max.toNat) := by
  have hpos : (0 : ℚ) < h.count := by exact_mod_cast hN
  obtain ⟨hlow, hhigh⟩ := h.roundedSum_bounds
  have hmean := mean_eq binary64 hN
  rw [binary64_natCast hlt] at hmean
  generalize hsum : roundedSum binary64 0 _ = sum at hlow hhigh hmean
  have hsum₀ : 0 ≤ sum / h.count := div_nonneg (le_trans (by positivity) hlow) hpos.le
  refine ⟨?_, ?_, fun hbelow => ?_⟩
  · rw [hmean]
    refine le_trans ?_ (relativeRounding_binary64.lower hsum₀)
    calc (1 - 1 / 2 ^ 53) ^ (h.count + 2) * h.exactMean
        = (1 - 1 / 2 ^ 53) * ((1 - 1 / 2 ^ 53) ^ h.count * ((1 - 1 / 2 ^ 53) * h.total) / h.count) := by
          rw [exactMean]
          ring
      _ ≤ (1 - 1 / 2 ^ 53) * (sum / h.count) :=
          mul_le_mul_of_nonneg_left (div_le_div_of_nonneg_right hlow hpos.le) (by norm_num)
  · rw [hmean]
    refine (relativeRounding_binary64.upper hsum₀).trans ?_
    calc (1 + 1 / 2 ^ 53) * (sum / h.count)
        ≤ (1 + 1 / 2 ^ 53) * ((1 + 1 / 2 ^ 53) ^ h.count * ((1 + 1 / 2 ^ 53) * h.total) / h.count) :=
          mul_le_mul_of_nonneg_left (div_le_div_of_nonneg_right hhigh hpos.le) (by norm_num)
      _ = (1 + 1 / 2 ^ 53) ^ (h.count + 2) * h.exactMean := by
          rw [exactMean]
          ring
  · rw [← hsum, roundedSum_of_total_lt hbelow, ← exactMean] at hmean
    rw [hmean]
    exact ⟨rfl, binary64_exactMean_mem hN hbelow⟩

theorem mean_accurate_three :
    (⟨[10, 20, 60]⟩ : LatencyHistogram).mean binary64 = 30 ∧
      (10 : ℚ) ≤ (⟨[10, 20, 60]⟩ : LatencyHistogram).mean binary64 := by
  obtain ⟨-, -, hexact⟩ := mean_accurate ⟨[10, 20, 60]⟩ (by decide) (by decide)
  obtain ⟨hmean, hmin, -⟩ := hexact (by decide)
  exact ⟨hmean.trans (by decide +kernel), hmin⟩

-- beyond that the mean of equal samples can be below all of them, or above
example : (⟨List.replicate 6 (2 ^ 53 + 4)⟩ : LatencyHistogram).mean binary64 = 2 ^ 53 + 2 := by decide +kernel

example : (⟨List.replicate 6 (2 ^ 53 + 12)⟩ : LatencyHistogram).mean binary64 = 2 ^ 53 + 14 := by decide +kernel

end LatencyHistogram
end AetherStream.Metrics
