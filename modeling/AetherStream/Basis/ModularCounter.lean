import Mathlib.Data.Nat.ModEq
import Mathlib.Data.Fintype.Card
import Mathlib.Logic.Function.Basic

/-! Arithmetic of free-running 64-bit counters over a power-of-two window. A counter
that was incremented `n` times from zero is `UInt64.ofNat n`, so wrapping past `2 ^ 64`
needs no special case: only the distance between two counters is ever bounded. -/

namespace Basis.ModularCounter

theorem ofNat_lt_iff {n : Nat} {m : UInt64} (h : n ≤ m.toNat) : UInt64.ofNat n < m ↔ n < m.toNat := by
  have hlt := m.toNat_lt
  rw [UInt64.lt_iff_toNat_lt, UInt64.toNat_ofNat_of_lt' (by rw [UInt64.size]; omega)]

theorem ofNat_succ (n : Nat) : UInt64.ofNat n + 1 = UInt64.ofNat (n + 1) := by
  apply UInt64.toNat_inj.mp
  simp [UInt64.toNat_add]

theorem ofNat_add (n m : Nat) : UInt64.ofNat n + UInt64.ofNat m = UInt64.ofNat (n + m) := by
  apply UInt64.toNat_inj.mp
  simp [UInt64.toNat_add]

theorem toNat_ofNat_sub {t h : Nat} (hle : t ≤ h) (hlt : h - t < 2 ^ 64) :
    (UInt64.ofNat h - UInt64.ofNat t).toNat = h - t := by
  simp only [UInt64.toNat_sub, UInt64.toNat_ofNat']
  omega

theorem toNat_ofNat_sub_of_lt {t h : Nat} (hlt : h < t) (hle : t - h < 2 ^ 64) :
    (UInt64.ofNat h - UInt64.ofNat t).toNat = 2 ^ 64 - (t - h) := by
  simp only [UInt64.toNat_sub, UInt64.toNat_ofNat']
  omega

theorem ofNat_add_sub_ofNat_add (n h t : Nat) :
    UInt64.ofNat (n + h) - UInt64.ofNat (n + t) = UInt64.ofNat h - UInt64.ofNat t := by
  apply UInt64.toNat_inj.mp
  simp only [UInt64.toNat_sub, UInt64.toNat_ofNat']
  omega

theorem ofNat_eq_iff {t h : Nat} (hle : t ≤ h) (hlt : h - t < 2 ^ 64) :
    UInt64.ofNat t = UInt64.ofNat h ↔ t = h := by
  rw [← UInt64.toNat_inj, UInt64.toNat_ofNat', UInt64.toNat_ofNat']
  omega

section PowerOfTwo
variable {c : UInt64}

theorem exists_pow_of_and_pred (hpow : c &&& (c - 1) = 0) (hpos : 1 ≤ c) :
    ∃ k, k < 64 ∧ c.toNat = 2 ^ k := by
  have hpos' : 1 ≤ c.toNat := UInt64.le_iff_toNat_le.mp hpos
  have hand : c.toNat &&& (c.toNat - 1) = 0 := by
    have h := congrArg UInt64.toNat hpow
    rwa [UInt64.toNat_and, UInt64.toNat_sub_of_le _ _ hpos] at h
  obtain ⟨k, hk⟩ := (Nat.and_sub_one_eq_zero_iff_isPowerOfTwo (by omega)).mp hand
  refine ⟨k, ?_, hk⟩
  by_contra hge
  have hbig : 2 ^ 64 ≤ 2 ^ k := Nat.pow_le_pow_right (by decide) (by omega)
  have hlt := c.toNat_lt
  omega

theorem toNat_and_mask (hpow : c &&& (c - 1) = 0) (hpos : 1 ≤ c) (n : Nat) :
    (UInt64.ofNat n &&& (c - 1)).toNat = n % c.toNat := by
  obtain ⟨k, hk, hc⟩ := exists_pow_of_and_pred hpow hpos
  rw [UInt64.toNat_and, UInt64.toNat_sub_of_le _ _ hpos, UInt64.toNat_ofNat', UInt64.toNat_one, hc,
    Nat.and_two_pow_sub_one_eq_mod]
  exact Nat.mod_mod_of_dvd n (Nat.pow_dvd_pow 2 hk.le)

theorem toNat_and_mask_lt (hpos : 1 ≤ c) (i : UInt64) : (i &&& (c - 1)).toNat < c.toNat := by
  have hpos' : 1 ≤ c.toNat := UInt64.le_iff_toNat_le.mp hpos
  have hle : i.toNat &&& (c.toNat - 1) ≤ c.toNat - 1 := Nat.and_le_right
  rw [UInt64.toNat_and, UInt64.toNat_sub_of_le _ _ hpos, UInt64.toNat_one]
  omega

end PowerOfTwo

section Window
variable {n : Nat}

theorem eq_of_mod_eq {t i j : Nat} (hi : t ≤ i) (hi' : i < t + n) (hj : t ≤ j) (hj' : j < t + n)
    (h : i % n = j % n) : i = j := by
  rcases Nat.le_total i j with hij | hij
  · have hd : n ∣ j - i := (Nat.modEq_iff_dvd' hij).mp h
    have hz : j - i = 0 := Nat.eq_zero_of_dvd_of_lt hd (by omega)
    omega
  · have hd : n ∣ i - j := (Nat.modEq_iff_dvd' hij).mp h.symm
    have hz : i - j = 0 := Nat.eq_zero_of_dvd_of_lt hd (by omega)
    omega

variable [NeZero n]

theorem wrap_inj {t i j : Nat} (hi : t ≤ i) (hi' : i < t + n) (hj : t ≤ j) (hj' : j < t + n) :
    Fin.ofNat n i = Fin.ofNat n j ↔ i = j :=
  ⟨fun h => eq_of_mod_eq hi hi' hj hj' (congrArg Fin.val h), fun h => h ▸ rfl⟩

theorem wrap_add_window (i : Nat) : Fin.ofNat n (i + n) = Fin.ofNat n i := by
  apply Fin.ext
  simp [Fin.ofNat]

theorem exists_wrap_eq (t : Nat) (s : Fin n) : ∃ i, t ≤ i ∧ i < t + n ∧ Fin.ofNat n i = s := by
  have hs := s.isLt
  have hpos : 0 < n := by omega
  have hm := Nat.mod_lt t hpos
  have hdm := Nat.div_add_mod t n
  by_cases h : t % n ≤ s.val
  · refine ⟨t - t % n + s.val, by omega, by omega, Fin.ext ?_⟩
    have hq : t - t % n + s.val = s.val + n * (t / n) := by omega
    rw [Fin.val_ofNat, hq, Nat.add_mul_mod_self_left, Nat.mod_eq_of_lt hs]
  · refine ⟨t - t % n + n + s.val, by omega, by omega, Fin.ext ?_⟩
    have hq : t - t % n + n + s.val = s.val + n * (t / n + 1) := by rw [Nat.mul_add, Nat.mul_one]; omega
    rw [Fin.val_ofNat, hq, Nat.add_mul_mod_self_left, Nat.mod_eq_of_lt hs]

theorem update_wrap {β : Type*} (slots : Fin n → β) (b : β) {t i j : Nat} (hi : t ≤ i)
    (hi' : i < t + n) (hj : t ≤ j) (hj' : j < t + n) :
    Function.update slots (Fin.ofNat n j) b (Fin.ofNat n i) =
      if i = j then b else slots (Fin.ofNat n i) := by
  by_cases h : i = j
  · subst h
    simp
  · have hne : Fin.ofNat n i ≠ Fin.ofNat n j := fun he => h ((wrap_inj hi hi' hj hj').mp he)
    rw [Function.update_of_ne hne, if_neg h]

end Window

end Basis.ModularCounter
