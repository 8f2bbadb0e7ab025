import Mathlib.Algebra.Order.Floor.Semiring
import Mathlib.Algebra.Order.Monoid.WithTop
import Mathlib.Data.List.Perm.Basic
import AetherStream.Basis.Rounding

/-! `LatencyHistogram`: the samples, their extremes and their percentiles. A `double` is its
exact value, and every floating-point operation the exact one behind a rounding, which is an
argument. -/

namespace AetherStream.Metrics
open Basis

abbrev Double : Type := WithBot (WithTop ℚ)

def Double.ofRat (q : ℚ) : Double := WithBot.some (WithTop.some q)

theorem Double.ofRat_le_ofRat {p q : ℚ} : Double.ofRat p ≤ Double.ofRat q ↔ p ≤ q :=
  WithBot.coe_le_coe.trans WithTop.coe_le_coe

structure LatencyHistogram where
  samples : List UInt64 := []

def rank (rnd : ℚ → ℚ) (N : ℕ) (p : ℚ) : ℕ := ⌈rnd (rnd (p / 100) * rnd N)⌉₊

def index (rnd : ℚ → ℚ) (N : ℕ) (p : ℚ) : ℕ := (if rank rnd N p = 0 then 1 else rank rnd N p) - 1

namespace LatencyHistogram

def record (h : LatencyHistogram) (latencyNs : UInt64) : LatencyHistogram := ⟨h.samples ++ [latencyNs]⟩

def count (h : LatencyHistogram) : ℕ := h.samples.length

def min (h : LatencyHistogram) : UInt64 := h.samples.min?.getD 0

def max (h : LatencyHistogram) : UInt64 := h.samples.max?.getD 0

def sorted (h : LatencyHistogram) : List UInt64 := h.samples.mergeSort

/-- The access to the sorted vector is unchecked; `none` stands for one that is out of bounds. -/
def percentile (rnd : ℚ → ℚ) (h : LatencyHistogram) (percentileValue : Double) : Option UInt64 :=
  if h.samples.isEmpty then some 0
  else if percentileValue ≤ .ofRat 0 then some h.min
  else if Double.ofRat 100 ≤ percentileValue then some h.max
  else h.sorted[index rnd h.count ((percentileValue.unbotD 0).untopD 0)]?

section Percentiles
variable (rnd : ℚ → ℚ) (h : LatencyHistogram)

def p50 : Option UInt64 := h.percentile rnd (.ofRat (rnd 50))

def p95 : Option UInt64 := h.percentile rnd (.ofRat (rnd 95))

def p99 : Option UInt64 := h.percentile rnd (.ofRat (rnd 99))

def p999 : Option UInt64 := h.percentile rnd (.ofRat (rnd (999 / 10)))

end Percentiles
end LatencyHistogram

section Index
variable {rnd : ℚ → ℚ} {N : ℕ}

theorem rank_le (hrnd : MonotoneRounding rnd N) (hN : 1 ≤ N) {p : ℚ} (hp : p ≤ 100) : rank rnd N p ≤ N := by
  have hquot : rnd (p / 100) ≤ 1 := by
    calc rnd (p / 100) ≤ rnd (1 : ℕ) := hrnd.mono (by push_cast; linarith)
      _ = 1 := by rw [hrnd.natCast 1 hN, Nat.cast_one]
  have hprod : rnd (p / 100) * rnd N ≤ N := by
    rw [hrnd.natCast N le_rfl]
    exact mul_le_of_le_one_left (Nat.cast_nonneg N) hquot
  rw [rank, Nat.ceil_le]
  calc rnd (rnd (p / 100) * rnd N) ≤ rnd N := hrnd.mono hprod
    _ = N := hrnd.natCast N le_rfl

theorem rank_mono (hrnd : MonotoneRounding rnd N) : Monotone (rank rnd N) := by
  intro p q hpq
  have hquot : rnd (p / 100) ≤ rnd (q / 100) := hrnd.mono (div_le_div_of_nonneg_right hpq (by norm_num))
  refine Nat.ceil_mono (hrnd.mono ?_)
  rw [hrnd.natCast N le_rfl]
  exact mul_le_mul_of_nonneg_right hquot (Nat.cast_nonneg N)

theorem index_mono (hrnd : MonotoneRounding rnd N) : Monotone (index rnd N) := by
  intro p q hpq
  have hrank := rank_mono hrnd hpq
  unfold index
  split_ifs <;> omega

theorem index_lt (hrnd : MonotoneRounding rnd N) (hN : 1 ≤ N) {p : ℚ} (hp : p ≤ 100) : index rnd N p < N := by
  have hrank := rank_le hrnd hN hp
  unfold index
  split_ifs <;> omega

def position (rnd : ℚ → ℚ) (N : ℕ) (p : Double) : ℕ :=
  if p ≤ .ofRat 0 then 0 else if Double.ofRat 100 ≤ p then N - 1 else index rnd N ((p.unbotD 0).untopD 0)

theorem exists_rat_of_unclamped {p : Double} (hlow : ¬ p ≤ .ofRat 0) (hhigh : ¬ Double.ofRat 100 ≤ p) :
    ∃ x : ℚ, p = .ofRat x ∧ 0 < x ∧ x < 100 := by
  induction p using WithBot.recBotCoe with
  | bot => exact absurd bot_le hlow
  | coe p =>
    induction p using WithTop.recTopCoe with
    | top => exact absurd le_top hhigh
    | coe x => exact ⟨x, rfl, not_le.mp (mt Double.ofRat_le_ofRat.mpr hlow),
        not_le.mp (mt Double.ofRat_le_ofRat.mpr hhigh)⟩

theorem position_lt (hrnd : MonotoneRounding rnd N) (hN : 1 ≤ N) (p : Double) : position rnd N p < N := by
  unfold position
  split_ifs with hlow hhigh
  · exact hN
  · omega
  · obtain ⟨x, rfl, -, hx⟩ := exists_rat_of_unclamped hlow hhigh
    exact index_lt hrnd hN hx.le

theorem position_mono (hrnd : MonotoneRounding rnd N) (hN : 1 ≤ N) : Monotone (position rnd N) := by
  intro p q hpq
  have hlast := position_lt hrnd hN p
  by_cases hlow : p ≤ .ofRat 0
  · rw [position, if_pos hlow]
    exact Nat.zero_le _
  have hlow' : ¬ q ≤ .ofRat 0 := fun hq => hlow (hpq.trans hq)
  by_cases hhigh' : Double.ofRat 100 ≤ q
  · rw [show position rnd N q = N - 1 by rw [position, if_neg hlow', if_pos hhigh']]
    omega
  have hhigh : ¬ Double.ofRat 100 ≤ p := fun hp => hhigh' (hp.trans hpq)
  obtain ⟨x, rfl, -, -⟩ := exists_rat_of_unclamped hlow hhigh
  obtain ⟨y, rfl, -, -⟩ := exists_rat_of_unclamped hlow' hhigh'
  rw [position, position, if_neg hlow, if_neg hlow', if_neg hhigh, if_neg hhigh']
  exact index_mono hrnd (Double.ofRat_le_ofRat.mp hpq)

end Index

instance lawfulOrderMax : Std.LawfulOrderMax UInt64 := by
  refine .of_max_le_iff (fun a b c => ?_) fun a b => ?_
  · show (if a ≤ b then b else a) ≤ c ↔ _
    split_ifs with hab
    · exact ⟨fun hbc => ⟨UInt64.le_trans hab hbc, hbc⟩, And.right⟩
    · have hba := (UInt64.le_total a b).resolve_left hab
      exact ⟨fun hac => ⟨hac, UInt64.le_trans hba hac⟩, And.left⟩
  · show (if a ≤ b then b else a) = a ∨ (if a ≤ b then b else a) = b
    split_ifs
    · exact .inr rfl
    · exact .inl rfl

namespace LatencyHistogram

section Sorted
variable (h : LatencyHistogram)

theorem sorted_perm : h.sorted.Perm h.samples := List.mergeSort_perm ..

theorem length_sorted : h.sorted.length = h.count := h.sorted_perm.length_eq

theorem pairwise_sorted : h.sorted.Pairwise (· ≤ ·) := by
  have hpairwise : (h.samples.mergeSort fun a b => decide (a ≤ b)).Pairwise fun a b => decide (a ≤ b) = true := by
    apply List.pairwise_mergeSort
    · intro a b c hab hbc
      exact decide_eq_true (UInt64.le_trans (of_decide_eq_true hab) (of_decide_eq_true hbc))
    · intro a b
      simpa using UInt64.le_total a b
  exact hpairwise.imp of_decide_eq_true

variable {h}

theorem sorted_congr {h' : LatencyHistogram} (hperm : h'.samples.Perm h.samples) : h'.sorted = h.sorted := by
  refine List.Perm.eq_of_pairwise (fun a b _ _ => UInt64.le_antisymm) h'.pairwise_sorted h.pairwise_sorted ?_
  exact h'.sorted_perm.trans (hperm.trans h.sorted_perm.symm)

theorem exists_sorted {i : ℕ} (hi : i < h.count) : ∃ a, h.sorted[i]? = some a ∧ a ∈ h.samples := by
  rw [← h.length_sorted] at hi
  exact ⟨_, List.getElem?_eq_getElem hi, h.sorted_perm.mem_iff.mp (List.getElem_mem hi)⟩

theorem sorted_le {i j : ℕ} {a b : UInt64} (hij : i ≤ j) (ha : h.sorted[i]? = some a) (hb : h.sorted[j]? = some b) :
    a ≤ b := by
  obtain ⟨hi, rfl⟩ := List.getElem?_eq_some_iff.mp ha
  obtain ⟨hj, rfl⟩ := List.getElem?_eq_some_iff.mp hb
  rcases hij.eq_or_lt with rfl | hlt
  · exact UInt64.le_refl _
  · exact List.pairwise_iff_getElem.mp h.pairwise_sorted i j hi hj hlt

theorem sorted_zero (hN : 1 ≤ h.count) : h.sorted[0]? = some h.min := by
  obtain ⟨a, ha, hmem⟩ := exists_sorted hN
  have hmin : h.samples.min? = some a := by
    refine List.min?_eq_some_iff.mpr ⟨hmem, fun b hb => ?_⟩
    obtain ⟨j, hj⟩ := List.getElem?_of_mem (h.sorted_perm.mem_iff.mpr hb)
    exact sorted_le (Nat.zero_le j) ha hj
  rw [ha, min, hmin, Option.getD_some]

theorem sorted_last (hN : 1 ≤ h.count) : h.sorted[h.count - 1]? = some h.max := by
  obtain ⟨a, ha, hmem⟩ := exists_sorted (h := h) (Nat.sub_lt hN Nat.one_pos)
  have hmax : h.samples.max? = some a := by
    refine List.max?_eq_some_iff.mpr ⟨hmem, fun b hb => ?_⟩
    obtain ⟨j, hj⟩ := List.getElem?_of_mem (h.sorted_perm.mem_iff.mpr hb)
    have hlt : j < h.sorted.length := (List.getElem?_eq_some_iff.mp hj).1
    rw [length_sorted] at hlt
    exact sorted_le (by omega) hj ha
  rw [ha, max, hmax, Option.getD_some]

theorem percentile_eq (rnd : ℚ → ℚ) (hN : 1 ≤ h.count) (p : Double) :
    h.percentile rnd p = h.sorted[position rnd h.count p]? := by
  have hne : h.samples.isEmpty = false := by
    rw [List.isEmpty_eq_false_iff]
    rintro hnil
    rw [count, hnil] at hN
    cases hN
  unfold percentile position
  rw [hne, if_neg Bool.false_ne_true]
  split_ifs
  · exact (sorted_zero hN).symm
  · exact (sorted_last hN).symm
  · rfl

end Sorted

section Percentiles
variable {rnd : ℚ → ℚ} {h : LatencyHistogram} (hrnd : MonotoneRounding rnd h.count) (hN : 1 ≤ h.count)
include hrnd hN

theorem percentile_mem (p : Double) : ∃ a, h.percentile rnd p = some a ∧ a ∈ h.samples := by
  rw [percentile_eq rnd hN]
  exact exists_sorted (position_lt hrnd hN p)

theorem percentile_le {p q : Double} (hpq : p ≤ q) {a b : UInt64} (ha : h.percentile rnd p = some a)
    (hb : h.percentile rnd q = some b) : a ≤ b := by
  rw [percentile_eq rnd hN] at ha hb
  exact sorted_le (position_mono hrnd hN hpq) ha hb

theorem percentile_bounds {p : Double} {a : UInt64} (ha : h.percentile rnd p = some a) : h.min ≤ a ∧ a ≤ h.max := by
  rw [percentile_eq rnd hN] at ha
  have hlt := position_lt hrnd hN p
  exact ⟨sorted_le (Nat.zero_le _) (sorted_zero hN) ha, sorted_le (by omega) ha (sorted_last hN)⟩

omit hrnd in
theorem percentile_congr {h' : LatencyHistogram} (hperm : h'.samples.Perm h.samples) (p : Double) :
    h'.percentile rnd p = h.percentile rnd p := by
  have hcount : h'.count = h.count := hperm.length_eq
  rw [percentile_eq rnd hN, percentile_eq rnd (hcount ▸ hN), sorted_congr hperm, hcount]

/-- For any monotone rounding the accesses of `percentile` are in bounds, its results are
samples between the extremes, in the order of the percentages, and the same for every order
of recording. -/
theorem percentiles_bounded_monotone {p q : Double} (hpq : p ≤ q) :
    (∀ x : ℚ, 0 < x → x < 100 → index rnd h.count x < h.count) ∧
      (∃ a b, h.percentile rnd p = some a ∧ h.percentile rnd q = some b ∧ h.min ≤ a ∧ a ≤ b ∧ b ≤ h.max ∧
        a ∈ h.samples ∧ b ∈ h.samples) ∧
      (∀ h' : LatencyHistogram, h'.samples.Perm h.samples → h'.percentile rnd p = h.percentile rnd p) ∧
      ∃ a b c d, h.p50 rnd = some a ∧ h.p95 rnd = some b ∧ h.p99 rnd = some c ∧ h.p999 rnd = some d ∧
        a ≤ b ∧ b ≤ c ∧ c ≤ d := by
  refine ⟨fun x _ hx => index_lt hrnd hN hx.le, ?_, fun h' hperm => percentile_congr hN hperm p, ?_⟩
  · obtain ⟨a, ha, hamem⟩ := percentile_mem hrnd hN p
    obtain ⟨b, hb, hbmem⟩ := percentile_mem hrnd hN q
    exact ⟨a, b, ha, hb, (percentile_bounds hrnd hN ha).1, percentile_le hrnd hN hpq ha hb,
      (percentile_bounds hrnd hN hb).2, hamem, hbmem⟩
  · have hliteral {x y : ℚ} (hxy : x ≤ y) : Double.ofRat (rnd x) ≤ .ofRat (rnd y) :=
      Double.ofRat_le_ofRat.mpr (hrnd.mono hxy)
    obtain ⟨a, ha, -⟩ := percentile_mem hrnd hN (.ofRat (rnd 50))
    obtain ⟨b, hb, -⟩ := percentile_mem hrnd hN (.ofRat (rnd 95))
    obtain ⟨c, hc, -⟩ := percentile_mem hrnd hN (.ofRat (rnd 99))
    obtain ⟨d, hd, -⟩ := percentile_mem hrnd hN (.ofRat (rnd (999 / 10)))
    refine ⟨a, b, c, d, ha, hb, hc, hd, ?_, ?_, ?_⟩
    · exact percentile_le hrnd hN (hliteral (by norm_num)) ha hb
    · exact percentile_le hrnd hN (hliteral (by norm_num)) hb hc
    · exact percentile_le hrnd hN (hliteral (by norm_num)) hc hd

end Percentiles

theorem percentiles_of_three_samples :
    let h : LatencyHistogram := ⟨[30, 10, 20]⟩
    ∃ a b, h.percentile (roundNearest 52) (.ofRat 50) = some a ∧ h.percentile (roundNearest 52) (.ofRat 99) = some b ∧
      h.min ≤ a ∧ a ≤ b ∧ b ≤ h.max ∧ a ∈ h.samples ∧ b ∈ h.samples := by
  intro h
  have hpq : Double.ofRat 50 ≤ .ofRat 99 := Double.ofRat_le_ofRat.mpr (by norm_num)
  have hrnd : MonotoneRounding (roundNearest 52) h.count := monotoneRounding_roundNearest (by decide)
  exact (percentiles_bounded_monotone hrnd (by decide) hpq).2.1

end LatencyHistogram
end AetherStream.Metrics
