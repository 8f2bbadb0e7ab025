import Mathlib.Data.List.Basic

/-! Texts that are a run of self-delimiting records followed by a tail. A framing finds the
record at the start of a text, if there is one, and how much of the text it takes. -/

namespace Basis

structure Framing (β ρ : Type*) where
  frame : List β → Option (ρ × Nat)
  pos : ∀ {bs r n}, frame bs = some (r, n) → 0 < n
  le_length : ∀ {bs r n}, frame bs = some (r, n) → n ≤ bs.length

namespace Framing
variable {β ρ : Type*} (F : Framing β ρ)

inductive Splits : List β → List ρ → List β → Prop
  | done (tail : List β) : Splits tail [] tail
  | more {bs : List β} {r : ρ} {n : Nat} {rs : List ρ} {tail : List β} (hframe : F.frame bs = some (r, n))
      (hrest : Splits (bs.drop n) rs tail) : Splits bs (r :: rs) tail

variable {F}

theorem Splits.append {bs mid tail : List β} {rs ss : List ρ} (h : F.Splits bs rs mid)
    (h' : F.Splits mid ss tail) : F.Splits bs (rs ++ ss) tail := by
  induction h with
  | done => exact h'
  | more hframe _ ih => exact .more hframe (ih h')

theorem Splits.length_le {bs tail : List β} {rs : List ρ} (h : F.Splits bs rs tail) :
    rs.length + tail.length ≤ bs.length := by
  induction h with
  | done => simp
  | @more bs r n rs tail hframe _ ih =>
    have hpos := F.pos hframe
    have hle := F.le_length hframe
    simp only [List.length_drop] at ih
    simp only [List.length_cons]
    omega

theorem Splits.prefix_of_stuck {bs tail tail' : List β} {rs rs' : List ρ} (h : F.Splits bs rs tail)
    (hstuck : F.frame tail = none) (h' : F.Splits bs rs' tail') :
    ∃ ss, rs = rs' ++ ss ∧ F.Splits tail' ss tail := by
  induction h' generalizing rs with
  | done => exact ⟨rs, rfl, h⟩
  | more hframe _ ih =>
    cases h with
    | done => rw [hstuck] at hframe; contradiction
    | more hframe' hrest' =>
      rw [hframe] at hframe'
      obtain ⟨rfl, rfl⟩ := Prod.mk.inj (Option.some.inj hframe')
      obtain ⟨ss, rfl, hss⟩ := ih hrest'
      exact ⟨ss, rfl, hss⟩

theorem Splits.unique {bs tail tail' : List β} {rs rs' : List ρ} (h : F.Splits bs rs tail)
    (hstuck : F.frame tail = none) (h' : F.Splits bs rs' tail') (hstuck' : F.frame tail' = none) :
    rs = rs' ∧ tail = tail' := by
  obtain ⟨ss, rfl, hss⟩ := h.prefix_of_stuck hstuck h'
  cases hss with
  | done => exact ⟨List.append_nil _, rfl⟩
  | more hframe _ => rw [hstuck'] at hframe; contradiction

variable (F) in
theorem exists_splits (bs : List β) : ∃ rs tail, F.Splits bs rs tail ∧ F.frame tail = none := by
  induction hn : bs.length using Nat.strongRecOn generalizing bs with
  | ind n ih =>
    cases hframe : F.frame bs with
    | none => exact ⟨[], bs, .done bs, hframe⟩
    | some p =>
      obtain ⟨r, m⟩ := p
      have hpos := F.pos hframe
      have hle := F.le_length hframe
      obtain ⟨rs, tail, hsplit, hstuck⟩ := ih (n - m) (by omega) (bs.drop m) (by simp [hn])
      exact ⟨r :: rs, tail, .more hframe hsplit, hstuck⟩

section Texts
variable {IsText : List β → ρ → Prop} (htext : ∀ {c r}, IsText c r → ∀ rest, F.frame (c ++ rest) = some (r, c.length))
  (hframe : ∀ {bs r n}, F.frame bs = some (r, n) → IsText (bs.take n) r)
include htext

theorem splits_of_texts {chunks : List (List β)} {rs : List ρ} (h : List.Forall₂ IsText chunks rs)
    (tail : List β) : F.Splits (chunks.flatten ++ tail) rs tail := by
  induction h with
  | nil => exact .done tail
  | @cons c r chunks rs hc _ ih =>
    rw [List.flatten_cons, List.append_assoc]
    refine .more (htext hc _) ?_
    rwa [List.drop_left]

include hframe in
theorem splits_iff_texts {bs tail : List β} {rs : List ρ} :
    F.Splits bs rs tail ↔ ∃ chunks, bs = List.flatten chunks ++ tail ∧ List.Forall₂ IsText chunks rs := by
  constructor
  · intro h
    induction h with
    | done tail => exact ⟨[], rfl, .nil⟩
    | @more bs r n rs tail hf _ ih =>
      obtain ⟨chunks, heq, hall⟩ := ih
      refine ⟨bs.take n :: chunks, ?_, .cons (hframe hf) hall⟩
      rw [List.flatten_cons, List.append_assoc, ← heq, List.take_append_drop]
  · rintro ⟨chunks, rfl, hall⟩
    exact splits_of_texts htext hall tail

end Texts
end Framing
end Basis
