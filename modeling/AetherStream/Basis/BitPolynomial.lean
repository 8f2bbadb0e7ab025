import Mathlib.Algebra.CharP.Two
import Mathlib.Algebra.Field.ZMod
import Mathlib.Algebra.Polynomial.FieldDivision
import Mathlib.RingTheory.AdjoinRoot

/-! Texts of bits as polynomials over GF(2), the remainder of a text modulo a generator, and
the bursts of errors that the remainder notices. -/

namespace Basis.BitPolynomial
open Polynomial

def coeffOf (b : Bool) : ZMod 2 := if b then 1 else 0

theorem coeffOf_xor (a b : Bool) : coeffOf (a ^^ b) = coeffOf a + coeffOf b := by
  cases a <;> cases b <;> decide

theorem coeffOf_injective : Function.Injective coeffOf := by decide

theorem coeffOf_eq_one (b : Bool) : decide (coeffOf b = 1) = b := by
  cases b <;> decide

noncomputable def ofBits : List Bool → (ZMod 2)[X]
  | [] => 0
  | b :: bs => C (coeffOf b) * X ^ bs.length + ofBits bs

theorem ofBits_append (as bs : List Bool) : ofBits (as ++ bs) = ofBits as * X ^ bs.length + ofBits bs := by
  induction as with
  | nil => simp [ofBits]
  | cons a as ih =>
    rw [List.cons_append, ofBits, ofBits, ih, List.length_append, pow_add]
    ring

theorem ofBits_replicate_false (n : ℕ) : ofBits (List.replicate n false) = 0 := by
  induction n with
  | zero => rfl
  | succ n ih => rw [List.replicate_succ, ofBits, ih, coeffOf, if_neg Bool.false_ne_true, C_0, zero_mul, add_zero]

theorem degree_ofBits_lt (bs : List Bool) : (ofBits bs).degree < bs.length := by
  induction bs with
  | nil => simp [ofBits]
  | cons b bs ih =>
    have hlt : (bs.length : WithBot ℕ) < (b :: bs).length := by
      exact_mod_cast Nat.lt_succ_self _
    refine (degree_add_le _ _).trans_lt (max_lt ?_ (ih.trans hlt))
    exact (degree_C_mul_X_pow_le _ _).trans_lt hlt

theorem coeff_ofBits {bs : List Bool} {i : ℕ} {b : Bool} (h : bs[i]? = some b) :
    (ofBits bs).coeff (bs.length - 1 - i) = coeffOf b := by
  induction bs generalizing i with
  | nil => simp at h
  | cons a bs ih =>
    cases i with
    | zero =>
      obtain rfl : a = b := by simpa using h
      have hhigh : (ofBits bs).coeff bs.length = 0 := coeff_eq_zero_of_degree_lt (degree_ofBits_lt bs)
      simp [ofBits, hhigh]
    | succ i =>
      have hi : bs[i]? = some b := by simpa using h
      have hlt : i < bs.length := (List.getElem?_eq_some_iff.mp hi).1
      have hindex : (a :: bs).length - 1 - (i + 1) = bs.length - 1 - i := by
        rw [List.length_cons]
        omega
      rw [hindex, ofBits, coeff_add, ih hi, coeff_C_mul, coeff_X_pow, if_neg (by omega), mul_zero, zero_add]

theorem ofBits_injective {as bs : List Bool} (hlen : as.length = bs.length) (h : ofBits as = ofBits bs) : as = bs := by
  refine List.ext_getElem hlen fun i ha hb => coeffOf_injective ?_
  rw [← coeff_ofBits (List.getElem?_eq_getElem ha), ← coeff_ofBits (List.getElem?_eq_getElem hb), h, hlen]

theorem ofBits_map_xor {ι : Type*} (l : List ι) (f g : ι → Bool) :
    ofBits (l.map fun i => f i ^^ g i) = ofBits (l.map f) + ofBits (l.map g) := by
  induction l with
  | nil => simp [ofBits]
  | cons i l ih =>
    simp only [List.map_cons, ofBits, List.length_map, coeffOf_xor, C_add, ih]
    ring

def bitsOf (w n : ℕ) : List Bool := (List.range w).map n.testBit

theorem length_bitsOf (w n : ℕ) : (bitsOf w n).length = w := by
  simp [bitsOf]

theorem bitsOf_succ (w n : ℕ) : bitsOf (w + 1) n = n.testBit 0 :: bitsOf w (n / 2) := by
  simp [bitsOf, List.range_succ_eq_map, Function.comp_def, Nat.testBit_succ]

theorem bitsOf_add_of_lt {k n : ℕ} (h : n < 2 ^ k) (m : ℕ) :
    bitsOf (k + m) n = bitsOf k n ++ List.replicate m false := by
  have hhigh : (List.range m).map (fun i => n.testBit (k + i)) = List.replicate m false := by
    refine List.eq_replicate_iff.mpr ⟨by simp, fun b hb => ?_⟩
    obtain ⟨i, -, rfl⟩ := List.mem_map.mp hb
    exact Nat.testBit_lt_two_pow (h.trans_le (Nat.pow_le_pow_right (by decide) (Nat.le_add_right k i)))
  rw [bitsOf, List.range_add, List.map_append, List.map_map, ← hhigh]
  rfl

theorem bitsOf_injective {w m n : ℕ} (hm : m < 2 ^ w) (hn : n < 2 ^ w) (h : bitsOf w m = bitsOf w n) : m = n := by
  refine Nat.eq_of_testBit_eq fun i => ?_
  rcases Nat.lt_or_ge i w with hi | hi
  · have hget := congrArg (·[i]?) h
    simpa [bitsOf, hi] using hget
  · have hpow : 2 ^ w ≤ 2 ^ i := Nat.pow_le_pow_right (by decide) hi
    rw [Nat.testBit_lt_two_pow (hm.trans_le hpow), Nat.testBit_lt_two_pow (hn.trans_le hpow)]

noncomputable def ofWord (w n : ℕ) : (ZMod 2)[X] := ofBits (bitsOf w n)

theorem degree_ofWord_lt (w n : ℕ) : (ofWord w n).degree < w := by
  have h := degree_ofBits_lt (bitsOf w n)
  rwa [length_bitsOf] at h

theorem ofWord_xor (w m n : ℕ) : ofWord w (m ^^^ n) = ofWord w m + ofWord w n := by
  rw [ofWord, ofWord, ofWord, bitsOf, bitsOf, bitsOf, ← ofBits_map_xor]
  congr 2
  funext i
  exact Nat.testBit_xor ..

theorem ofWord_of_lt {k n : ℕ} (h : n < 2 ^ k) (m : ℕ) : ofWord (k + m) n = ofBits (bitsOf k n) * X ^ m := by
  rw [ofWord, bitsOf_add_of_lt h, ofBits_append, ofBits_replicate_false, List.length_replicate, add_zero]

theorem ofWord_zero (w : ℕ) : ofWord w 0 = 0 := by
  simpa [bitsOf, ofBits] using ofWord_of_lt (show 0 < 2 ^ 0 by decide) w

theorem ofWord_half {w n : ℕ} (hw : w ≠ 0) (h : n < 2 ^ w) :
    ofWord w (n / 2) = X * ofWord w n + C (coeffOf (n.testBit 0)) * X ^ w := by
  obtain ⟨w, rfl⟩ := Nat.exists_eq_add_one_of_ne_zero hw
  have hhalf : n / 2 < 2 ^ w := by
    rw [Nat.pow_succ] at h
    omega
  have hchar (p : (ZMod 2)[X]) : p + p = 0 := CharTwo.add_self_eq_zero p
  rw [ofWord_of_lt hhalf 1, ofWord, bitsOf_succ, ofBits, length_bitsOf]
  linear_combination -hchar (C (coeffOf (n.testBit 0)) * X ^ (w + 1))

noncomputable def word (w : ℕ) (p : (ZMod 2)[X]) : ℕ :=
  Nat.ofBits fun i : Fin w => decide (p.coeff (w - 1 - i) = 1)

theorem word_ofWord {w n : ℕ} (h : n < 2 ^ w) : word w (ofWord w n) = n := by
  have hbit (i : Fin w) : decide ((ofWord w n).coeff (w - 1 - i) = 1) = n.testBit i := by
    have hget : (bitsOf w n)[i.val]? = some (n.testBit i) := by simp [bitsOf]
    have hcoeff := coeff_ofBits hget
    rw [length_bitsOf] at hcoeff
    rw [ofWord, hcoeff, coeffOf_eq_one]
  rw [word, funext hbit, Nat.ofBits_testBit, Nat.mod_eq_of_lt h]

structure IsGenerator (P : (ZMod 2)[X]) (w : ℕ) : Prop where
  monic : P.Monic
  degree : P.degree = w

theorem isGenerator_add {w : ℕ} {tail : (ZMod 2)[X]} (h : tail.degree < w) : IsGenerator (X ^ w + tail) w where
  monic := monic_X_pow_add h
  degree := by
    rw [degree_add_eq_left_of_degree_lt (by rwa [degree_X_pow]), degree_X_pow]

section Remainder
variable {P : (ZMod 2)[X]} {w : ℕ} (hP : IsGenerator P w)
include hP

omit hP in
theorem mk_ofWord_shift {g n : ℕ} (hw : w ≠ 0) (h : n < 2 ^ w) :
    AdjoinRoot.mk (X ^ w + ofWord w g) (ofWord w ((n / 2) ^^^ if n.testBit 0 then g else 0)) =
      AdjoinRoot.mk (X ^ w + ofWord w g) (X * ofWord w n) := by
  have hfeedback : ofWord w (if n.testBit 0 then g else 0) = C (coeffOf (n.testBit 0)) * ofWord w g := by
    cases n.testBit 0
    · simp [coeffOf, ofWord_zero]
    · simp [coeffOf]
  rw [AdjoinRoot.mk_eq_mk, ofWord_xor, ofWord_half hw h, hfeedback]
  exact ⟨C (coeffOf (n.testBit 0)), by ring⟩

theorem IsGenerator.eq_modByMonic {p q : (ZMod 2)[X]} (hdeg : p.degree < w)
    (h : AdjoinRoot.mk P p = AdjoinRoot.mk P q) : p = q %ₘ P := by
  rw [← modByMonic_eq_of_dvd_sub hP.monic (AdjoinRoot.mk_eq_mk.mp h)]
  exact ((modByMonic_eq_self_iff hP.monic).mpr (hP.degree ▸ hdeg)).symm

/-- The remainders of two texts that agree outside of `w` consecutive bits are different: the
generator would divide the difference, which has fewer powers than it. -/
theorem IsGenerator.burst (hX : IsCoprime P X) {pre mid mid' post : List Bool} (hlen : mid.length = mid'.length)
    (hw : mid.length ≤ w) {n : ℕ} {r : (ZMod 2)[X]}
    (h : (ofBits (pre ++ mid ++ post) * X ^ n + r) %ₘ P = (ofBits (pre ++ mid' ++ post) * X ^ n + r) %ₘ P) :
    mid = mid' := by
  have hdiff : ofBits (pre ++ mid ++ post) * X ^ n + r - (ofBits (pre ++ mid' ++ post) * X ^ n + r) =
      (ofBits mid - ofBits mid') * X ^ (post.length + n) := by
    simp only [ofBits_append, hlen]
    ring
  have hdvd : P ∣ (ofBits mid - ofBits mid') * X ^ (post.length + n) := by
    rw [← hdiff, ← modByMonic_eq_zero_iff_dvd hP.monic, sub_modByMonic, h, sub_self]
  have hzero : ofBits mid - ofBits mid' = 0 := by
    refine eq_zero_of_dvd_of_degree_lt (hX.pow_right.dvd_of_dvd_mul_right hdvd) ?_
    have hle : (mid.length : WithBot ℕ) ≤ w := by exact_mod_cast hw
    rw [hP.degree]
    refine (degree_sub_le _ _).trans_lt (max_lt ((degree_ofBits_lt mid).trans_le hle) ?_)
    exact (degree_ofBits_lt mid').trans_le (hlen ▸ hle)
  exact ofBits_injective hlen (sub_eq_zero.mp hzero)

end Remainder

theorem exists_window {β : Type*} {s s' : List β} (hlen : s.length = s'.length) {i k : ℕ}
    (h : ∀ j, j < i ∨ i + k ≤ j → s[j]? = s'[j]?) :
    ∃ pre mid mid' post, s = pre ++ mid ++ post ∧ s' = pre ++ mid' ++ post ∧ mid.length = mid'.length ∧
      mid.length ≤ k := by
  have hsplit (t : List β) : t = t.take i ++ (t.drop i).take k ++ t.drop (i + k) := by
    rw [List.append_assoc, ← List.drop_drop, List.take_append_drop, List.take_append_drop]
  have hpre : s'.take i = s.take i := by
    refine List.ext_getElem? fun j => ?_
    rw [List.getElem?_take, List.getElem?_take]
    split_ifs with hj
    · exact (h j (Or.inl hj)).symm
    · rfl
  have hpost : s'.drop (i + k) = s.drop (i + k) := by
    refine List.ext_getElem? fun j => ?_
    rw [List.getElem?_drop, List.getElem?_drop]
    exact (h _ (Or.inr (Nat.le_add_right _ _))).symm
  refine ⟨s.take i, (s.drop i).take k, (s'.drop i).take k, s.drop (i + k), hsplit s, ?_, by simp [hlen], by simp⟩
  rw [← hpre, ← hpost]
  exact hsplit s'

/-- The redundancy check of a text: the remainder of the text, shifted by the width, with the
register full of ones before it and complemented behind it. -/
noncomputable def check (P : (ZMod 2)[X]) (w : ℕ) (bits : List Bool) : (ZMod 2)[X] :=
  (ofBits bits * X ^ w + ofBits (List.replicate w true) * X ^ bits.length) %ₘ P + ofBits (List.replicate w true)

end Basis.BitPolynomial
