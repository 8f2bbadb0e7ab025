import Mathlib.Data.Fintype.Card
import Mathlib.Logic.Function.Basic

/-! Object lifetimes in raw storage. Objects are numbered in the order of construction, and
every access is logged together with what its slot held before, so a construction over a
live object or an access to a dead one stays visible in the log instead of being ruled out
by the definitions. -/

namespace Basis

inductive Slot (α : Type*) where
  | raw
  | live (id : Nat) (value : α)
  | hollow (id : Nat)
  deriving DecidableEq, Repr

namespace Slot
variable {α : Type*}

def object : Slot α → Option Nat
  | raw => none
  | live id _ => some id
  | hollow id => some id

def value : Slot α → Option α
  | live _ v => some v
  | _ => none

def isLive (s : Slot α) : Bool := s.object.isSome

def revalue (residue : Option α) : Slot α → Slot α
  | raw => raw
  | live id _ | hollow id => residue.elim (hollow id) (live id)

@[simp] theorem object_revalue (residue : Option α) (s : Slot α) : (s.revalue residue).object = s.object := by
  cases s <;> cases residue <;> rfl

@[simp] theorem isLive_revalue (residue : Option α) (s : Slot α) : (s.revalue residue).isLive = s.isLive := by
  simp only [isLive, object_revalue]

theorem eq_raw_of_not_isLive {s : Slot α} (h : s.isLive = false) : s = raw := by
  cases s <;> simp_all [isLive, object]

end Slot

inductive Access (n : Nat) (α : Type*) where
  | construct (i : Fin n) (id : Nat) (prior : Slot α)
  | moveOut (i : Fin n) (prior : Slot α)
  | destroy (i : Fin n) (prior : Slot α)
  deriving DecidableEq, Repr

namespace Access
variable {n : Nat} {α : Type*}

def legal : Access n α → Bool
  | construct _ _ prior => !prior.isLive
  | moveOut _ prior => prior.isLive
  | destroy _ prior => prior.isLive

def slot : Access n α → Fin n
  | construct i _ _ | moveOut i _ | destroy i _ => i

def ends (id : Nat) : Access n α → Bool
  | destroy _ prior => prior.object == some id
  | _ => false

end Access

structure Storage (n : Nat) (α : Type*) where
  slots : Fin n → Slot α
  born : Nat
  log : List (Access n α)

namespace Storage
variable {n : Nat} {α : Type*}

def empty (n : Nat) (α : Type*) : Storage n α := ⟨fun _ => .raw, 0, []⟩

def constructAt (st : Storage n α) (i : Fin n) (v : α) : Storage n α where
  slots := Function.update st.slots i (.live st.born v)
  born := st.born + 1
  log := st.log ++ [.construct i st.born (st.slots i)]

def moveLeaving (residue : Option α) (st : Storage n α) (i : Fin n) : Storage n α where
  slots := Function.update st.slots i ((st.slots i).revalue residue)
  born := st.born
  log := st.log ++ [.moveOut i (st.slots i)]

def destroyAt (st : Storage n α) (i : Fin n) : Storage n α where
  slots := Function.update st.slots i .raw
  born := st.born
  log := st.log ++ [.destroy i (st.slots i)]

@[simp] theorem slots_constructAt (st : Storage n α) (i : Fin n) (v : α) :
    (st.constructAt i v).slots = Function.update st.slots i (.live st.born v) := rfl

@[simp] theorem slots_moveLeaving (residue : Option α) (st : Storage n α) (i : Fin n) :
    (st.moveLeaving residue i).slots = Function.update st.slots i ((st.slots i).revalue residue) := rfl

@[simp] theorem slots_destroyAt (st : Storage n α) (i : Fin n) :
    (st.destroyAt i).slots = Function.update st.slots i .raw := rfl

def Lawful (st : Storage n α) : Prop := ∀ a ∈ st.log, a.legal = true

def deaths (st : Storage n α) (id : Nat) : Nat := st.log.countP (Access.ends id)

/-- Every object born so far either sits in exactly one slot and was never destroyed, or
sits nowhere and was destroyed once. -/
structure Accounted (st : Storage n α) : Prop where
  born : ∀ id < st.born, (st.deaths id = 0 ∧ ∃! i, (st.slots i).object = some id) ∨
    (st.deaths id = 1 ∧ ∀ i, (st.slots i).object ≠ some id)
  unborn : ∀ id, st.born ≤ id → st.deaths id = 0 ∧ ∀ i, (st.slots i).object ≠ some id

theorem lawful_empty : (empty n α).Lawful := by
  simp [Lawful, empty]

theorem accounted_empty : (empty n α).Accounted :=
  ⟨fun _ h => absurd h (Nat.not_lt_zero _), fun _ _ => ⟨rfl, fun _ => by simp [empty, Slot.object]⟩⟩

section Lawful
variable {st : Storage n α} {i : Fin n}

theorem Lawful.constructAt (h : st.Lawful) (hi : (st.slots i).isLive = false) (v : α) :
    (st.constructAt i v).Lawful := by
  intro a ha
  rcases List.mem_append.mp ha with ha | ha
  · exact h a ha
  · simp_all [Access.legal]

theorem Lawful.moveLeaving (h : st.Lawful) (hi : (st.slots i).isLive = true) (residue : Option α) :
    (st.moveLeaving residue i).Lawful := by
  intro a ha
  rcases List.mem_append.mp ha with ha | ha
  · exact h a ha
  · simp_all [Access.legal]

theorem Lawful.destroyAt (h : st.Lawful) (hi : (st.slots i).isLive = true) :
    (st.destroyAt i).Lawful := by
  intro a ha
  rcases List.mem_append.mp ha with ha | ha
  · exact h a ha
  · simp_all [Access.legal]

end Lawful

section Accounted
variable {st : Storage n α} {i : Fin n}

theorem deaths_constructAt (st : Storage n α) (i : Fin n) (v : α) (id : Nat) :
    (st.constructAt i v).deaths id = st.deaths id := by
  simp [deaths, Storage.constructAt, Access.ends]

theorem deaths_moveLeaving (st : Storage n α) (i : Fin n) (residue : Option α) (id : Nat) :
    (st.moveLeaving residue i).deaths id = st.deaths id := by
  simp [deaths, Storage.moveLeaving, Access.ends]

theorem deaths_destroyAt (st : Storage n α) (i : Fin n) (id : Nat) :
    (st.destroyAt i).deaths id = st.deaths id + if (st.slots i).object = some id then 1 else 0 := by
  simp only [deaths, Storage.destroyAt, List.countP_append, List.countP_singleton, Access.ends, beq_iff_eq]

theorem object_moveLeaving (st : Storage n α) (i j : Fin n) (residue : Option α) :
    ((st.moveLeaving residue i).slots j).object = (st.slots j).object := by
  rw [slots_moveLeaving]
  by_cases h : j = i
  · subst h
    simp
  · simp [Function.update_of_ne h]

theorem Accounted.moveLeaving (h : st.Accounted) (i : Fin n) (residue : Option α) :
    (st.moveLeaving residue i).Accounted := by
  constructor
  · intro id hid
    simp only [deaths_moveLeaving, object_moveLeaving]
    exact h.born id hid
  · intro id hid
    simp only [deaths_moveLeaving, object_moveLeaving]
    exact h.unborn id hid

theorem Accounted.constructAt (h : st.Accounted) (hi : (st.slots i).isLive = false) (v : α) :
    (st.constructAt i v).Accounted := by
  have hraw := Slot.eq_raw_of_not_isLive hi
  have hobj (j : Fin n) : ((st.constructAt i v).slots j).object =
      if j = i then some st.born else (st.slots j).object := by
    simp only [slots_constructAt, Function.update_apply]
    split_ifs <;> rfl
  -- an older object cannot have been in slot `i`, which was raw
  have hold (id : Nat) (hid : id ≠ st.born) (j : Fin n) :
      ((st.constructAt i v).slots j).object = some id ↔ (st.slots j).object = some id := by
    rw [hobj]
    split_ifs with hj
    · subst hj
      simp [hraw, Slot.object, hid.symm]
    · rfl
  constructor
  · intro id hid
    rw [deaths_constructAt]
    by_cases hnew : id = st.born
    · subst hnew
      obtain ⟨hd, hnone⟩ := h.unborn st.born le_rfl
      refine Or.inl ⟨hd, i, by simp [Slot.object], fun j hj => ?_⟩
      by_contra hne
      exact hnone j (by simpa only [hobj, if_neg hne] using hj)
    · simp only [ne_eq, hold id hnew]
      exact h.born id (by have : id < st.born + 1 := hid; omega)
  · intro id hid
    have hlt : st.born < id := hid
    simp only [deaths_constructAt, ne_eq, hold id (by omega)]
    exact h.unborn id hlt.le

theorem Accounted.destroyAt (h : st.Accounted) (i : Fin n) : (st.destroyAt i).Accounted := by
  have hobj (j : Fin n) : ((st.destroyAt i).slots j).object =
      if j = i then none else (st.slots j).object := by
    simp only [slots_destroyAt, Function.update_apply]
    split_ifs <;> rfl
  constructor
  · intro id hid
    rw [deaths_destroyAt]
    simp only [hobj]
    rcases h.born id hid with ⟨hd, j, hj, huniq⟩ | ⟨hd, hnone⟩
    · by_cases hji : j = i
      · subst hji
        right
        refine ⟨by simp [hd, hj], fun k hk => ?_⟩
        split_ifs at hk with hkj
        exact hkj (huniq k hk)
      · have hio : (st.slots i).object ≠ some id := fun hio => hji (huniq i hio).symm
        left
        refine ⟨by simp [hd, hio], j, by simp [hji, hj], fun k hk => ?_⟩
        refine huniq k ?_
        beta_reduce at hk ⊢
        split_ifs at hk with hki
        exact hk
    · right
      refine ⟨by simp [hd, hnone i], fun k hk => ?_⟩
      split_ifs at hk with hki
      exact hnone k hk
  · intro id hid
    obtain ⟨hd, hnone⟩ := h.unborn id hid
    rw [deaths_destroyAt]
    simp only [hobj]
    refine ⟨by simp [hd, hnone i], fun k hk => ?_⟩
    split_ifs at hk with hki
    exact hnone k hk

theorem Accounted.deaths_eq_one (h : st.Accounted) (hraw : ∀ i, st.slots i = .raw) {id : Nat}
    (hid : id < st.born) : st.deaths id = 1 := by
  rcases h.born id hid with ⟨-, i, hi, -⟩ | ⟨hd, -⟩
  · simp [hraw i, Slot.object] at hi
  · exact hd

end Accounted
end Storage
end Basis
